import Mopa.CommonTypes
import Mopa.BitFields
import Mopa.Lib.Encoder

/-! Construction in binary mode writes what an encoder says, or throws. -/
namespace Mopa.Io
open Bits Outcome

theorem u32_of_lt {n : Nat} (h : n < 2^32) : u32 n = n := Nat.mod_eq_of_lt h

theorem sub32_of_le {a b : Nat} (h : b ≤ a) (ha : a < 2^32) : sub32 a b = a - b := by
  unfold sub32
  omega

namespace ObCtx

def emit (c : ObCtx) (bits : List Bool) : ObCtx :=
  { c with
    bitpos := c.bitpos + bits.length
    data := toMemory ((ofMemory c.data).write c.bitpos bits) }

@[simp] theorem emit_bitpos (c : ObCtx) (bits : List Bool) :
    (c.emit bits).bitpos = c.bitpos + bits.length := rfl
@[simp] theorem emit_bitlimit (c : ObCtx) (bits : List Bool) : (c.emit bits).bitlimit = c.bitlimit := rfl
@[simp] theorem emit_scopeStack (c : ObCtx) (bits : List Bool) :
    (c.emit bits).scopeStack = c.scopeStack := rfl
@[simp] theorem emit_data (c : ObCtx) (bits : List Bool) :
    ofMemory (c.emit bits).data = (ofMemory c.data).write c.bitpos bits := ofMemory_toMemory _

@[simp] theorem emit_nil (c : ObCtx) : c.emit [] = c := by
  unfold emit
  rw [Memory.write_nil, toMemory_ofMemory]
  rfl

theorem emit_append (c : ObCtx) (as bs : List Bool) : c.emit (as ++ bs) = (c.emit as).emit bs := by
  unfold emit
  simp only [ofMemory_toMemory, List.length_append, Memory.write_append, Nat.add_assoc]

theorem eq_emit {c d : ObCtx} {bits : List Bool} (hpos : d.bitpos = c.bitpos + bits.length)
    (hlimit : d.bitlimit = c.bitlimit) (hstack : d.scopeStack = c.scopeStack)
    (hdata : ofMemory d.data = (ofMemory c.data).write c.bitpos bits) : d = c.emit bits := by
  obtain ⟨pos, limit, data, stack⟩ := d
  simp only at hpos hlimit hstack hdata
  subst hpos hlimit hstack
  rw [emit, ← hdata, toMemory_ofMemory]

structure Good (c : ObCtx) (top : Nat := 2^30) : Prop where
  pos : c.bitpos ≤ c.bitlimit
  limit : c.bitlimit ≤ top

theorem Good.emit {c : ObCtx} {top : Nat} {bits : List Bool} (h : c.Good top) (hfit : c.bitpos + bits.length ≤ c.bitlimit) :
    (c.emit bits).Good top := ⟨hfit, h.limit⟩

end ObCtx

/-- The program writes the bits of the encoder where they exist and fit, and throws
otherwise. Wherever it starts, it leaves the scopes as they were. -/
structure Writes {α : Type} (x : Obx α) (e : Encoder α) (top : Nat := 2^30) : Prop where
  balanced : ∀ c a c', x c = .ok a c' → c'.scopeStack = c.scopeStack ∧ c'.bitlimit = c.bitlimit
  run : ∀ c, c.Good top →
    match e c.bitpos with
    | some (a, bits) =>
      if c.bitpos + bits.length ≤ c.bitlimit then x c = .ok a (c.emit bits) else Fails x c
    | none => Fails x c

namespace Writes
variable {α β : Type} {x : Obx α} {e : Encoder α} {top : Nat}

theorem ok (h : Writes x e top) {c : ObCtx} (hc : c.Good top) {a : α} {bits : List Bool}
    (he : e c.bitpos = some (a, bits)) (hfit : c.bitpos + bits.length ≤ c.bitlimit) :
    x c = .ok a (c.emit bits) := by
  have hr := h.run c hc
  rw [he] at hr
  dsimp only at hr
  rwa [if_pos hfit] at hr

theorem of_ok (h : Writes x e top) {c c' : ObCtx} (hc : c.Good top) {a : α} (hx : x c = .ok a c') :
    ∃ bits, e c.bitpos = some (a, bits) ∧ c.bitpos + bits.length ≤ c.bitlimit ∧ c' = c.emit bits := by
  have hr := h.run c hc
  split at hr
  · next a' bits he =>
    split at hr
    · next hfit =>
      rw [hx] at hr
      cases hr
      exact ⟨bits, he, hfit, rfl⟩
    · exact absurd hr (not_fails_of_ok hx)
  · exact absurd hr (not_fails_of_ok hx)

protected theorem pure (a : α) : Writes (pure a) (pure a) top where
  balanced := fun c a' c' h => by
    cases h
    exact ⟨rfl, rfl⟩
  run := fun c hc => by
    rw [Encoder.pure_apply]
    dsimp only
    rw [if_pos (show c.bitpos + [].length ≤ c.bitlimit from hc.pos), ObCtx.emit_nil]
    rfl

protected theorem bind {f : α → Obx β} {g : α → Encoder β} (hx : Writes x e top)
    (hf : ∀ a, Writes (f a) (g a) top) : Writes (x >>= f) (e >>= g) top where
  balanced := fun c b c' h => by
    obtain ⟨a, c1, h1, h2⟩ := bind_eq_ok.mp h
    obtain ⟨hs1, hl1⟩ := hx.balanced c a c1 h1
    obtain ⟨hs2, hl2⟩ := (hf a).balanced c1 b c' h2
    exact ⟨hs2.trans hs1, hl2.trans hl1⟩
  run := fun c hc => by
    have h1 := hx.run c hc
    cases he : e c.bitpos with
    | none =>
      rw [Encoder.bind_none he]
      rw [he] at h1
      exact h1.bind f
    | some r =>
      obtain ⟨a, as⟩ := r
      rw [he] at h1
      rw [Encoder.bind_some he]
      dsimp only at h1
      split at h1
      · next hfit =>
        have h2 := (hf a).run (c.emit as) (hc.emit hfit)
        rw [ObCtx.emit_bitpos] at h2
        cases hg : g a (c.bitpos + as.length) with
        | none =>
          rw [hg] at h2
          exact h2.bind_right h1
        | some r =>
          obtain ⟨b, bs⟩ := r
          rw [hg] at h2
          show if c.bitpos + (as ++ bs).length ≤ c.bitlimit then _ else _
          rw [List.length_append, ← Nat.add_assoc, ObCtx.emit_append]
          dsimp only at h2
          rw [ObCtx.emit_bitlimit] at h2
          split
          · next hfit' =>
            rw [if_pos hfit'] at h2
            rw [bind_ok h1]
            exact h2
          · next hfit' =>
            rw [if_neg hfit'] at h2
            exact h2.bind_right h1
      · next hfit =>
        cases hg : g a (c.bitpos + as.length) with
        | none => exact h1.bind f
        | some r =>
          obtain ⟨b, bs⟩ := r
          show if c.bitpos + (as ++ bs).length ≤ c.bitlimit then _ else _
          rw [if_neg (by rw [List.length_append]; omega)]
          exact h1.bind f

theorem map (h : Writes x e top) (f : α → β) : Writes (f <$> x) (do
    let a ← e
    return f a) top := by
  rw [map_eq_pure_bind]
  exact h.bind fun a => .pure (f a)

theorem items {io : α → Obx α} {e : α → Encoder α} {list : List α} (h : ∀ a ∈ list, Writes (io a) (e a) top) :
    Writes (Iox.constructItems (m := .constructBinary) io list) (Encoder.items e list) top := by
  induction list with
  | nil => exact Writes.pure []
  | cons a list ih =>
    exact (h a List.mem_cons_self).bind fun a' =>
      (ih fun b hb => h b (List.mem_cons_of_mem a hb)).bind fun as => Writes.pure (a' :: as)

end Writes

theorem Writes.checked {x : Obx Unit} {f : ObCtx → ObCtx} {bits : List Bool} {top : Nat} (hlen : top + bits.length < 2^32)
    (hfail : ∀ c, u32 (c.bitpos + bits.length) > c.bitlimit → Fails x c)
    (hok : ∀ c, ¬ u32 (c.bitpos + bits.length) > c.bitlimit → x c = .ok () (f c))
    (hpos : ∀ c, (f c).bitpos = u32 (c.bitpos + bits.length))
    (hframe : ∀ c, (f c).scopeStack = c.scopeStack ∧ (f c).bitlimit = c.bitlimit)
    (hdata : ∀ c, ofMemory (f c).data = (ofMemory c.data).write c.bitpos bits) :
    Writes x (Encoder.emit bits) top where
  balanced := fun c a c' h => by
    by_cases hc : u32 (c.bitpos + bits.length) > c.bitlimit
    · exact absurd (hfail c hc) (not_fails_of_ok h)
    · rw [hok c hc] at h
      cases h
      exact hframe c
  run := fun c hc => by
    have hp := hc.pos
    have hl := hc.limit
    have hu : u32 (c.bitpos + bits.length) = c.bitpos + bits.length := u32_of_lt (by omega)
    show if c.bitpos + bits.length ≤ c.bitlimit then _ else _
    split
    · next hfit =>
      rw [hok c (by omega), ← ObCtx.eq_emit ((hpos c).trans hu) (hframe c).2 (hframe c).1 (hdata c)]
    · exact hfail c (by omega)

section Frame
variable {c c' : ObCtx} {w : Nat} {info : Info} {u : Unit}

theorem obx_uint8_frame {val : UInt8} (h : Obx.uint8 w val info c = .ok u c') :
    c'.scopeStack = c.scopeStack ∧ c'.bitlimit = c.bitlimit ∧ c'.bitpos = u32 (c.bitpos + w) ∧
      c'.bitpos ≤ c.bitlimit := by
  have h : (if u32 (c.bitpos + w) > c.bitlimit then throwX info "left %d bits, needed %d" c
    else EStateM.Result.ok () (c.nocheckUint8 w val)) = .ok u c' := h
  split at h
  · cases h
  · cases h
    exact ⟨rfl, rfl, rfl, show u32 (c.bitpos + w) ≤ c.bitlimit by omega⟩

theorem obx_uint16_frame {val : UInt16} (h : Obx.uint16 w val info c = .ok u c') :
    c'.scopeStack = c.scopeStack ∧ c'.bitlimit = c.bitlimit ∧ c'.bitpos = u32 (c.bitpos + w) ∧
      c'.bitpos ≤ c.bitlimit := by
  have h : (if u32 (c.bitpos + w) > c.bitlimit then throwX info "left %d bits, needed %d" c
    else EStateM.Result.ok () (c.nocheckUint16 w val)) = .ok u c' := h
  split at h
  · cases h
  · cases h
    exact ⟨rfl, rfl, rfl, show u32 (c.bitpos + w) ≤ c.bitlimit by omega⟩

theorem obx_uint32_apply (w : Nat) (val : UInt32) (info : Info) (c : ObCtx) :
    Obx.uint32 w val info c = if u32 (c.bitpos + w) > c.bitlimit then
        .error (.exception info "left %d bits, needed %d") c
      else if c.bitpos % 8 + w ≤ 32 then .ok () (c.nocheckUint32 w val)
      else .error (.exception info "value spans over 5 bytes") c := rfl

theorem obx_uint32_frame {val : UInt32} (h : Obx.uint32 w val info c = .ok u c') :
    c'.scopeStack = c.scopeStack ∧ c'.bitlimit = c.bitlimit ∧ c'.bitpos = u32 (c.bitpos + w) ∧
      c'.bitpos ≤ c.bitlimit := by
  rw [obx_uint32_apply] at h
  split at h
  · cases h
  · split at h
    · next hspan =>
      cases h
      unfold ObCtx.nocheckUint32
      dsimp only
      rw [if_pos hspan]
      exact ⟨rfl, rfl, rfl, show u32 (c.bitpos + w) ≤ c.bitlimit by omega⟩
    · cases h

end Frame

/-- The largest limit from which no block of 16-bit length and no string wraps. -/
def highTop : Nat := 2^32 - 2^20

theorem writes_uint8 {w : Nat} {val : UInt8} {top : Nat} (info : Info) (hw : w ≤ 8) (hv : val.toNat < 2^w) (htop : top ≤ highTop) :
    Writes (Obx.uint8 w val info) (Encoder.emit (ofNat w val.toNat)) top := by
  have hhigh : highTop = 2^32 - 2^20 := rfl
  refine .checked (f := fun c => c.nocheckUint8 w val) (by rw [length_ofNat]; omega) ?_ ?_ ?_ ?_ ?_
  · intro c h
    rw [length_ofNat] at h
    exact ⟨_, c, if_pos h⟩
  · intro c h
    rw [length_ofNat] at h
    exact if_neg h
  · intro c
    rw [length_ofNat]
    rfl
  · exact fun c => ⟨rfl, rfl⟩
  · exact fun c => nocheckUint8_write c w val hw hv

theorem writes_uint16 {w : Nat} {val : UInt16} {top : Nat} (info : Info) (hw : w ≤ 16) (hv : val.toNat < 2^w)
    (htop : top ≤ highTop) : Writes (Obx.uint16 w val info) (Encoder.emit (ofNat w val.toNat)) top := by
  have hhigh : highTop = 2^32 - 2^20 := rfl
  refine .checked (f := fun c => c.nocheckUint16 w val) (by rw [length_ofNat]; omega) ?_ ?_ ?_ ?_ ?_
  · intro c h
    rw [length_ofNat] at h
    exact ⟨_, c, if_pos h⟩
  · intro c h
    rw [length_ofNat] at h
    exact if_neg h
  · intro c
    rw [length_ofNat]
    rfl
  · exact fun c => ⟨rfl, rfl⟩
  · exact fun c => nocheckUint16_write c w val hw hv

theorem obx_uint32_ok {w : Nat} {val : UInt32} (info : Info) (h0 : 1 ≤ w) (hv : val.toNat < 2^w)
    {c : ObCtx} (hc : c.bitpos + w ≤ c.bitlimit) (hl : c.bitlimit < 2^32) (hspan : c.bitpos % 8 + w ≤ 32) :
    Obx.uint32 w val info c = .ok () (c.emit (ofNat w val.toNat)) := by
  obtain ⟨hdata, hpos⟩ := nocheckUint32_write c w val h0 hspan hv
  have hu : u32 (c.bitpos + w) = c.bitpos + w := u32_of_lt (by omega)
  have hrun : Obx.uint32 w val info c = .ok () (c.nocheckUint32 w val) := by
    rw [obx_uint32_apply, if_neg (by omega), if_pos hspan]
  obtain ⟨hstack, hlimit, -, -⟩ := obx_uint32_frame hrun
  rw [hrun, ← ObCtx.eq_emit (by rw [hpos, hu, length_ofNat]) hlimit hstack hdata]

theorem Writes.field {α : Type} {x : Obx α} {a : α} {bits : List Bool} {ok : Nat → Prop} [DecidablePred ok] {top : Nat}
    (hbal : ∀ c a c', x c = .ok a c' → c'.scopeStack = c.scopeStack ∧ c'.bitlimit = c.bitlimit)
    (hno : ∀ c, ¬ ok c.bitpos → Fails x c)
    (hlong : ∀ c : ObCtx, c.Good top → ok c.bitpos → ¬ c.bitpos + bits.length ≤ c.bitlimit → Fails x c)
    (hok : ∀ c : ObCtx, c.Good top → ok c.bitpos → c.bitpos + bits.length ≤ c.bitlimit →
      x c = .ok a (c.emit bits)) :
    Writes x (Encoder.field ok bits a) top where
  balanced := hbal
  run := fun c hc => by
    by_cases h : ok c.bitpos
    · rw [Encoder.field_eq_some.mpr ⟨rfl, h, rfl⟩]
      dsimp only
      split
      · next hfit => exact hok c hc h hfit
      · next hfit => exact hlong c hc h hfit
    · rw [Encoder.field_eq_none h]
      exact hno c h

theorem writes_uint32 {w : Nat} {val : UInt32} {top : Nat} (info : Info) (h0 : 1 ≤ w) (hv : val.toNat < 2^w)
    (htop : top ≤ highTop) :
    Writes (Obx.uint32 w val info) (Encoder.field (fun p => p % 8 + w ≤ 32) (ofNat w val.toNat) ()) top := by
  have hhigh : highTop = 2^32 - 2^20 := rfl
  refine .field ?_ ?_ ?_ ?_
  · intro c a c' h
    obtain ⟨hstack, hlimit, -⟩ := obx_uint32_frame h
    exact ⟨hstack, hlimit⟩
  · intro c hspan
    rw [Fails, obx_uint32_apply, if_neg hspan]
    split
    · exact ⟨_, _, rfl⟩
    · exact ⟨_, _, rfl⟩
  · intro c hc hspan hfit
    have hp := hc.pos
    have hl := hc.limit
    rw [length_ofNat] at hfit
    rw [Fails, obx_uint32_apply, u32_of_lt (by omega), if_pos (by omega)]
    exact ⟨_, _, rfl⟩
  · intro c hc hspan hfit
    have hl := hc.limit
    rw [length_ofNat] at hfit
    exact obx_uint32_ok info h0 hv hfit (by omega) hspan

def encodeShortString (str : List UInt8) : Encoder (List UInt8) :=
  Encoder.field (fun p => p % 8 = 0 ∧ str.length ≤ 255) (ofNat 8 str.length ++ ofBytes str) str

def encodeFixedString (numChars : Nat) (str : List UInt8) : Encoder (List UInt8) :=
  Encoder.field (fun p => p % 8 = 0 ∧ str.length = numChars) (ofBytes str) str

theorem encodeShortString_eq_some {str str' : List UInt8} {p : Nat} {bits : List Bool} :
    encodeShortString str p = some (str', bits) ↔ str' = str ∧ (p % 8 = 0 ∧ str.length ≤ 255) ∧
      bits = ofNat 8 str.length ++ ofBytes str := Encoder.field_eq_some

theorem encodeFixedString_eq_some {numChars : Nat} {str str' : List UInt8} {p : Nat} {bits : List Bool} :
    encodeFixedString numChars str p = some (str', bits) ↔ str' = str ∧
      (p % 8 = 0 ∧ str.length = numChars) ∧ bits = ofBytes str := Encoder.field_eq_some

theorem putBytes_emit {c : ObCtx} {str : List UInt8} (hp : c.bitpos % 8 = 0)
    (hfit : c.bitpos + 8 * str.length ≤ c.bitlimit) (hl : c.bitlimit < 2^32) :
    Obx.putBytes str c = .ok () (c.emit (ofBytes str)) := by
  have hu1 : u32 (str.length * 8) = 8 * str.length := by rw [u32_of_lt (by omega), Nat.mul_comm]
  have hu2 : u32 (c.bitpos + 8 * str.length) = c.bitpos + 8 * str.length := u32_of_lt (by omega)
  unfold Obx.putBytes
  rw [hu1, hu2]
  refine congrArg (EStateM.Result.ok ()) (ObCtx.eq_emit ?_ rfl rfl ?_)
  · rw [length_ofBytes]
  · show ofMemory (c.data.write (c.bitpos/8) str) = _
    rw [ofMemory_write, show 8 * (c.bitpos/8) = c.bitpos by omega]

theorem obx_shortString_apply (str : List UInt8) (info : Info) (c : ObCtx) :
    Iox.shortStringIo (m := .constructBinary) str info c =
      if c.bitpos % 8 ≠ 0 then .error (.exception info "String '%s' not byte-aligned") c
      else if u32 str.length > 255 then
        .error (.exception info "String '%s' length %d exceeds max 255 chars") c
      else if u32 (c.bitpos + u32 ((u32 str.length + 1) * 8)) > c.bitlimit then
        .error (.exception info "String '%s' requires %d bytes length, only %d bytes available") c
      else
        (Obx.uint8 8 (UInt8.ofNat (u32 str.length)) info >>= fun _ =>
          Obx.putBytes (str.take (u32 str.length)) >>= fun _ => pure str) c := rfl

theorem obx_fixedString_apply (numChars : Nat) (str : List UInt8) (info : Info) (c : ObCtx) :
    Iox.fixedStringIo numChars (m := .constructBinary) str info c =
      if c.bitpos % 8 ≠ 0 then .error (.exception info "String '%s' not byte-aligned") c
      else if str.length ≠ numChars then .error (.exception info "String '%s' must be %d long") c
      else if u32 (c.bitpos + u32 (u32 str.length * 8)) > c.bitlimit then
        .error (.exception info "String '%s' requires %d bytes length, only %d bytes available") c
      else (Obx.putBytes (str.take (u32 str.length)) >>= fun _ => pure str) c := rfl

theorem putBytes_frame {str : List UInt8} {c c' : ObCtx} {u : Unit} (h : Obx.putBytes str c = .ok u c') :
    c'.scopeStack = c.scopeStack ∧ c'.bitlimit = c.bitlimit := by
  cases h
  exact ⟨rfl, rfl⟩

theorem writes_shortString {top : Nat} (str : List UInt8) (info : Info) (hlen : str.length < 2^28) (htop : top ≤ highTop) :
    Writes (Iox.shortStringIo (m := .constructBinary) str info) (encodeShortString str) top := by
  have hhigh : highTop = 2^32 - 2^20 := rfl
  have hu : u32 str.length = str.length := u32_of_lt (by omega)
  refine .field ?_ ?_ ?_ ?_
  · intro c a c' h
    rw [obx_shortString_apply] at h
    split at h
    · cases h
    · split at h
      · cases h
      · split at h
        · cases h
        · obtain ⟨u, c1, h1, h⟩ := bind_eq_ok.mp h
          obtain ⟨u, c2, h2, h⟩ := bind_eq_ok.mp h
          cases h
          obtain ⟨hs1, hl1, -⟩ := obx_uint8_frame h1
          obtain ⟨hs2, hl2⟩ := putBytes_frame h2
          exact ⟨hs2.trans hs1, hl2.trans hl1⟩
  · intro c h
    rw [Fails, obx_shortString_apply, hu]
    split
    · exact ⟨_, _, rfl⟩
    · next hp =>
      rw [if_pos (by omega)]
      exact ⟨_, _, rfl⟩
  · intro c hc h hfit
    have hl := hc.limit
    have hp := hc.pos
    rw [List.length_append, length_ofNat, length_ofBytes] at hfit
    rw [Fails, obx_shortString_apply, hu, if_neg (by omega), if_neg (by omega),
      u32_of_lt (n := (str.length + 1) * 8) (by omega), u32_of_lt (by omega), if_pos (by omega)]
    exact ⟨_, _, rfl⟩
  · intro c hc h hfit
    have hl := hc.limit
    have hbyte : (UInt8.ofNat str.length).toNat = str.length := by
      rw [UInt8.toNat_ofNat', Nat.mod_eq_of_lt (by omega)]
    have h8 := (writes_uint8 (w := 8) info le_rfl (by rw [hbyte]; omega) htop).ok
      hc (a := ()) (Encoder.emit_eq_some.mpr rfl)
    rw [hbyte, length_ofNat] at h8
    rw [List.length_append, length_ofNat, length_ofBytes] at hfit
    rw [obx_shortString_apply, hu, if_neg (by omega), if_neg (by omega),
      u32_of_lt (n := (str.length + 1) * 8) (by omega), u32_of_lt (by omega), if_neg (by omega),
      bind_ok (h8 (by omega)), List.take_length, ObCtx.emit_append,
      bind_ok (putBytes_emit (by simp; omega) (by simp; omega) (by simp; omega))]
    rfl

theorem writes_fixedString {top : Nat} (numChars : Nat) (str : List UInt8) (info : Info) (hlen : str.length < 2^28)
    (htop : str.length = numChars → top + 8 * str.length < 2^32) :
    Writes (Iox.fixedStringIo numChars (m := .constructBinary) str info)
      (encodeFixedString numChars str) top := by
  have hu : u32 str.length = str.length := u32_of_lt (by omega)
  refine .field ?_ ?_ ?_ ?_
  · intro c a c' h
    rw [obx_fixedString_apply] at h
    split at h
    · cases h
    · split at h
      · cases h
      · split at h
        · cases h
        · obtain ⟨u, c1, h1, h⟩ := bind_eq_ok.mp h
          cases h
          exact putBytes_frame h1
  · intro c h
    rw [Fails, obx_fixedString_apply]
    split
    · exact ⟨_, _, rfl⟩
    · next hp =>
      rw [if_pos (by omega)]
      exact ⟨_, _, rfl⟩
  · intro c hc h hfit
    have hl := hc.limit
    have hp := hc.pos
    rw [length_ofBytes] at hfit
    rw [Fails, obx_fixedString_apply, hu, if_neg (by omega), if_neg (by omega),
      u32_of_lt (n := str.length * 8) (by omega), u32_of_lt (by omega), if_pos (by omega)]
    exact ⟨_, _, rfl⟩
  · intro c hc h hfit
    have hl := hc.limit
    rw [length_ofBytes] at hfit
    rw [obx_fixedString_apply, hu, if_neg (by omega), if_neg (by omega),
      u32_of_lt (n := str.length * 8) (by omega), u32_of_lt (by omega), if_neg (by omega), List.take_length,
      bind_ok (putBytes_emit h.1 hfit (by omega))]
    rfl

/-- The context behind `named_block_begin`. -/
def ObCtx.enter (c : ObCtx) (b : Nat) (info : Info) : ObCtx :=
  { c with
    bitpos := c.bitpos + b
    bitlimit := min c.bitlimit (c.bitpos + b + 8 * (2^b - 1))
    scopeStack := ⟨info, c.bitpos + b, c.bitlimit, c.bitpos⟩ :: c.scopeStack }

theorem obx_blockBegin_apply (limit : Nat) (info : Info) (c : ObCtx) :
    Obx.blockBegin limit info c =
      if c.bitpos % 8 ≠ 0 then .error (.exception info "starting bit not byte-aligned") c
      else .ok () { c with
        scopeStack := ⟨info, c.bitpos, c.bitlimit, 0⟩ :: c.scopeStack
        bitlimit := u32 (c.bitpos + if u32 (c.bitpos + u32 (limit * 8)) > c.bitlimit then
          sub32 c.bitlimit c.bitpos else u32 (limit * 8)) } := rfl

theorem obx_namedBlockBegin_apply (b : Nat) (info : Info) (c : ObCtx) :
    Obx.namedBlockBegin b info c =
      if u32 (c.bitpos + b) % 8 ≠ 0 then
        .error (.exception info "starting bit not byte-aligned") { c with bitpos := u32 (c.bitpos + b) }
      else .ok () { c with
        bitpos := u32 (c.bitpos + b)
        scopeStack := ⟨info, u32 (c.bitpos + b), c.bitlimit, c.bitpos⟩ :: c.scopeStack
        bitlimit := u32 (u32 (c.bitpos + b) +
          if u32 (u32 (c.bitpos + b) + u32 (u32 (2^b - 1) * 8)) > c.bitlimit then
            sub32 c.bitlimit (u32 (c.bitpos + b)) else u32 (u32 (2^b - 1) * 8)) } := by
  show (Obx.blockBegin (u32 (2^b - 1)) info >>= fun _ => Obx.setPositionForWrite c.bitpos)
    { c with bitpos := u32 (c.bitpos + b) } = _
  by_cases h : u32 (c.bitpos + b) % 8 ≠ 0
  · rw [if_pos h]
    refine bind_error ?_
    rw [obx_blockBegin_apply, if_pos h]
  · rw [if_neg h]
    refine (bind_ok (by rw [obx_blockBegin_apply, if_neg h])).trans ?_
    rfl

theorem obx_back_cons {c : ObCtx} {s : OScope} {outer : List OScope} (hs : c.scopeStack = s :: outer) :
    Obx.back c = .ok s c := by
  unfold Obx.back
  rw [hs]

theorem obx_back_nil {c : ObCtx} (hs : c.scopeStack = []) : Obx.back c = .error .undefined c := by
  unfold Obx.back
  rw [hs]

theorem obx_namedBlockEnd_nil {info : Info} {c : ObCtx} (hs : c.scopeStack = []) :
    Obx.namedBlockEnd info c = .error .undefined c := bind_error (obx_back_nil hs)

theorem obx_namedBlockEnd_apply (info : Info) (c : ObCtx) (s : OScope) (outer : List OScope)
    (hs : c.scopeStack = s :: outer) :
    Obx.namedBlockEnd info c =
      if sub32 c.bitpos s.bitposAtEnter % 8 ≠ 0 then
        .error (.exception info "block length not byte-aligned") c
      else (Obx.uint32 (sub32 s.bitposAtEnter s.positionForWrite)
          (UInt32.ofNat (sub32 c.bitpos s.bitposAtEnter / 8)) info >>= fun _ =>
        Obx.seek c.bitpos >>= fun _ => pure (sub32 c.bitpos s.bitposAtEnter / 8))
        { c with bitpos := s.positionForWrite, bitlimit := s.bitlimitAtEnter, scopeStack := outer } := by
  obtain ⟨pos, limit, data, stack⟩ := c
  obtain rfl : stack = s :: outer := hs
  unfold Obx.namedBlockEnd
  rw [bind_ok (obx_back_cons rfl)]
  by_cases h : sub32 pos s.bitposAtEnter % 8 ≠ 0
  · rw [if_pos h]
    exact bind_error (if_pos h)
  · rw [if_neg h]
    have hend : Obx.blockEnd info ⟨pos, limit, data, s :: outer⟩ =
      .ok (sub32 pos s.bitposAtEnter / 8) ⟨pos, s.bitlimitAtEnter, data, outer⟩ := if_neg h
    rw [bind_ok hend]
    rfl

theorem obx_namedBlockEnd_fails {info : Info} {c : ObCtx} {s : OScope} {outer : List OScope}
    (hs : c.scopeStack = s :: outer)
    (hover : u32 (s.positionForWrite + sub32 s.bitposAtEnter s.positionForWrite) > s.bitlimitAtEnter) :
    Fails (Obx.namedBlockEnd info) c := by
  rw [Fails, obx_namedBlockEnd_apply info c s outer hs]
  split
  · exact ⟨_, _, rfl⟩
  · have h32 : Fails (Obx.uint32 (sub32 s.bitposAtEnter s.positionForWrite)
        (UInt32.ofNat (sub32 c.bitpos s.bitposAtEnter / 8)) info)
        { c with bitpos := s.positionForWrite, bitlimit := s.bitlimitAtEnter, scopeStack := outer } :=
      ⟨_, _, by rw [obx_uint32_apply, if_pos hover]⟩
    exact h32.bind _

theorem obx_namedBlockEnd_misaligned {info : Info} {c : ObCtx} {s : OScope} {outer : List OScope}
    (hs : c.scopeStack = s :: outer) (h : sub32 c.bitpos s.bitposAtEnter % 8 ≠ 0) :
    Fails (Obx.namedBlockEnd info) c := by
  rw [Fails, obx_namedBlockEnd_apply info c s outer hs, if_pos h]
  exact ⟨_, _, rfl⟩

theorem obx_namedBlockEnd_frame {info : Info} {c c' : ObCtx} {s : OScope} {outer : List OScope} {n : Nat}
    (hs : c.scopeStack = s :: outer) (h : Obx.namedBlockEnd info c = .ok n c') :
    c'.scopeStack = outer ∧ c'.bitlimit = s.bitlimitAtEnter ∧ c'.bitpos = c.bitpos := by
  rw [obx_namedBlockEnd_apply info c s outer hs] at h
  split at h
  · cases h
  · obtain ⟨u, c1, h1, h⟩ := bind_eq_ok.mp h
    cases h
    obtain ⟨hstack, hlimit, -⟩ := obx_uint32_frame h1
    exact ⟨hstack, hlimit, rfl⟩

theorem obx_namedBlockBegin_enter {c : ObCtx} {b : Nat} (info : Info) (hl : c.bitlimit < 2^32)
    (hp : c.bitpos + b + 8 * (2^b - 1) < 2^32) (hfit : c.bitpos + b ≤ c.bitlimit) (hal : (c.bitpos + b) % 8 = 0) :
    Obx.namedBlockBegin b info c = .ok () (c.enter b info) := by
  have hsize : u32 (u32 (2^b - 1) * 8) = 8 * (2^b - 1) := by
    rw [u32_of_lt (n := 2^b - 1) (by omega), u32_of_lt (by omega), Nat.mul_comm]
  rw [obx_namedBlockBegin_apply, u32_of_lt (n := c.bitpos + b) (by omega), hsize, if_neg (by omega),
    u32_of_lt (n := c.bitpos + b + 8 * (2^b - 1)) (by omega), ObCtx.enter, Nat.min_def]
  by_cases hle : c.bitlimit ≤ c.bitpos + b + 8 * (2^b - 1)
  · rw [if_pos hle]
    congr 3
    split
    · rw [sub32_of_le hfit (by omega), Nat.add_sub_cancel' hfit, u32_of_lt (by omega)]
    · rw [u32_of_lt (by omega)]
      omega
  · rw [if_neg hle, if_neg (by omega), u32_of_lt (by omega)]

theorem obx_namedBlockEnd_close {c : ObCtx} (hl : c.bitlimit < 2^32) {b : Nat} (h0 : 1 ≤ b) (hb : b ≤ 32)
    (info endInfo : Info) (hfit : c.bitpos + b ≤ c.bitlimit) (hal : (c.bitpos + b) % 8 = 0)
    {bits : List Bool} (hroom : (c.enter b info).bitpos + bits.length ≤ (c.enter b info).bitlimit)
    (hbytes : bits.length % 8 = 0) :
    Obx.namedBlockEnd endInfo ((c.enter b info).emit bits) =
      .ok (bits.length / 8) (c.emit (ofNat b (bits.length / 8) ++ bits)) := by
  have hpos := Nat.two_pow_pos b
  simp only [ObCtx.enter] at hroom
  have hroom1 : c.bitpos + b + bits.length ≤ c.bitlimit := hroom.trans (Nat.min_le_left _ _)
  have hroom2 : bits.length ≤ 8 * (2^b - 1) :=
    Nat.le_of_add_le_add_left (hroom.trans (Nat.min_le_right _ _))
  have hlen : sub32 ((c.enter b info).emit bits).bitpos (c.bitpos + b) = bits.length := by
    show sub32 (c.bitpos + b + bits.length) (c.bitpos + b) = _
    rw [sub32_of_le (Nat.le_add_right _ _) (by omega), Nat.add_sub_cancel_left]
  have hwidth : sub32 (c.bitpos + b) c.bitpos = b := by
    rw [sub32_of_le (Nat.le_add_right _ _) (by omega), Nat.add_sub_cancel_left]
  have hval : (UInt32.ofNat (bits.length / 8)).toNat = bits.length / 8 := by
    rw [UInt32.toNat_ofNat', Nat.mod_eq_of_lt (by omega)]
  rw [obx_namedBlockEnd_apply endInfo _ ⟨info, c.bitpos + b, c.bitlimit, c.bitpos⟩ c.scopeStack rfl]
  have hwrite := obx_uint32_ok (w := b) endInfo h0
    (by rw [hval]; omega) (c := { (c.enter b info).emit bits with
      bitpos := c.bitpos, bitlimit := c.bitlimit, scopeStack := c.scopeStack }) hfit
    (show c.bitlimit < 2^32 by omega) (show c.bitpos % 8 + b ≤ 32 by omega)
  dsimp only
  rw [hlen, hwidth, if_neg (by omega), bind_ok hwrite, hval]
  refine congrArg (EStateM.Result.ok (bits.length / 8)) (ObCtx.eq_emit ?_ rfl rfl ?_)
  · show c.bitpos + b + bits.length = _
    rw [List.length_append, length_ofNat, Nat.add_assoc]
  · -- the two writes lie side by side
    show ofMemory (toMemory ((ofMemory (toMemory ((ofMemory c.data).write (c.bitpos + b) bits))).write
      c.bitpos (ofNat b (bits.length / 8)))) = _
    rw [ofMemory_toMemory, ofMemory_toMemory, Memory.write_append, length_ofNat,
      Memory.write_comm _ _ _ _ _ (Or.inr (by rw [length_ofNat]))]

theorem Writes.block_beyond {α : Type} {x : Obx α} {e : Encoder α} {top : Nat} (hx : Writes x e top) {b : Nat} (info endInfo : Info) {c : ObCtx}
    (hal : (c.bitpos + b) % 8 = 0) (hover : c.bitlimit < c.bitpos + b) (hlt : c.bitpos + b < 2^32) :
    Fails (Iox.namedBlock (m := .constructBinary) b info endInfo x) c := by
  have hu : u32 (c.bitpos + b) = c.bitpos + b := u32_of_lt hlt
  refine fails_of_not_ok fun r c' h => ?_
  obtain ⟨u, c1, h1, h⟩ := bind_eq_ok.mp h
  obtain ⟨a', c2, h2, h⟩ := bind_eq_ok.mp h
  obtain ⟨n, c3, h3, h⟩ := bind_eq_ok.mp h
  have h1 : Obx.namedBlockBegin b info c = .ok u c1 := h1
  rw [obx_namedBlockBegin_apply, hu, if_neg (by omega)] at h1
  cases h1
  obtain ⟨hs, -⟩ := hx.balanced _ _ _ h2
  refine not_fails_of_ok h3 (obx_namedBlockEnd_fails hs ?_)
  show u32 (c.bitpos + sub32 (c.bitpos + b) c.bitpos) > c.bitlimit
  rw [sub32_of_le (Nat.le_add_right _ _) hlt, Nat.add_sub_cancel_left, hu]
  exact hover

theorem Writes.block_run {α : Type} {x : Obx α} {e : Encoder α} {top : Nat} (hx : Writes x e top) {b : Nat} (h0 : 1 ≤ b)
    (hb : b ≤ 32) (info endInfo : Info) {c : ObCtx} (hl : c.bitlimit < 2^32)
    (htop : c.bitlimit ≤ top) (hwrap : c.bitpos + b + 8 * (2^b - 1) < 2^32) :
    match Encoder.block b e c.bitpos with
    | some (r, bits) =>
      if c.bitpos + bits.length ≤ c.bitlimit then
        Iox.namedBlock (m := .constructBinary) b info endInfo x c = .ok r (c.emit bits)
      else Fails (Iox.namedBlock (m := .constructBinary) b info endInfo x) c
    | none => Fails (Iox.namedBlock (m := .constructBinary) b info endInfo x) c := by
  have hu : u32 (c.bitpos + b) = c.bitpos + b := u32_of_lt (by omega)
  by_cases hal : (c.bitpos + b) % 8 = 0
  · by_cases hfit : c.bitpos + b ≤ c.bitlimit
    · have hlow : min c.bitlimit (c.bitpos + b + 8 * (2^b - 1)) ≤ top := by omega
      have hbegin := obx_namedBlockBegin_enter info hl hwrap hfit hal
      have hbody := hx.run (c.enter b info) ⟨Nat.le_min.mpr ⟨hfit, Nat.le_add_right _ _⟩, hlow⟩
      rw [show (c.enter b info).bitpos = c.bitpos + b from rfl] at hbody
      cases hbits : e (c.bitpos + b) with
      | none =>
        have he : Encoder.block b e c.bitpos = none := by
          unfold Encoder.block
          rw [if_pos hal, hbits]
        rw [hbits] at hbody
        rw [he]
        exact Fails.bind_right hbegin (hbody.bind _)
      | some r =>
        obtain ⟨a, bits⟩ := r
        have he : Encoder.block b e c.bitpos =
            if bits.length % 8 = 0 ∧ bits.length ≤ 8 * (2^b - 1) then
              some ((bits.length / 8, a), ofNat b (bits.length / 8) ++ bits) else none := by
          unfold Encoder.block
          rw [if_pos hal, hbits]
        rw [hbits] at hbody
        dsimp only at hbody
        rw [he]
        by_cases hroom : c.bitpos + b + bits.length ≤ (c.enter b info).bitlimit
        · rw [if_pos hroom] at hbody
          obtain ⟨hroom1, hroom2⟩ := Nat.le_min.mp hroom
          by_cases hbytes : bits.length % 8 = 0
          · rw [if_pos ⟨hbytes, by omega⟩]
            dsimp only
            rw [if_pos (by rw [List.length_append, length_ofNat]; omega)]
            have hend := obx_namedBlockEnd_close (by omega) h0 hb info endInfo hfit hal hroom hbytes
            refine (bind_ok hbegin).trans ((bind_ok hbody).trans ?_)
            exact (bind_ok hend).trans rfl
          · rw [if_neg fun h => hbytes h.1]
            have hend : Fails (Obx.namedBlockEnd endInfo) ((c.enter b info).emit bits) := by
              refine obx_namedBlockEnd_misaligned rfl ?_
              show sub32 (c.bitpos + b + bits.length) (c.bitpos + b) % 8 ≠ 0
              rw [sub32_of_le (Nat.le_add_right _ _) (by omega), Nat.add_sub_cancel_left]
              exact hbytes
            exact Fails.bind_right hbegin (Fails.bind_right hbody (hend.bind _))
        · rw [if_neg hroom] at hbody
          have hfail : Fails (Iox.namedBlock (m := .constructBinary) b info endInfo x) c :=
            Fails.bind_right hbegin (hbody.bind _)
          split
          · next a' bits' heq =>
            split at heq
            · next hbytes =>
              cases heq
              rw [List.length_append, length_ofNat, if_neg]
              · exact hfail
              · intro hle
                exact hroom (Nat.le_min.mpr ⟨by omega, by omega⟩)
            · cases heq
          · exact hfail
    · have hfail := hx.block_beyond info endInfo hal (not_le.mp hfit) (by omega)
      split
      · next r bits he =>
        obtain ⟨hal', body, hbody, hlen, hn, rfl⟩ := Encoder.block_eq_some.mp he
        rw [if_neg (by rw [List.length_append, length_ofNat]; omega)]
        exact hfail
      · exact hfail
  · have he : Encoder.block b e c.bitpos = none := by
      unfold Encoder.block
      rw [if_neg hal]
    rw [he]
    have hbegin : Fails (Obx.namedBlockBegin b info) c := by
      rw [Fails, obx_namedBlockBegin_apply, hu, if_pos hal]
      exact ⟨_, _, rfl⟩
    exact hbegin.bind _

theorem Writes.block {α : Type} {x : Obx α} {e : Encoder α} {top : Nat} (hx : Writes x e top) {b : Nat} (h0 : 1 ≤ b)
    (hb : b ≤ 16) (info endInfo : Info) (htop : top ≤ highTop) :
    Writes (Iox.namedBlock (m := .constructBinary) b info endInfo x) (Encoder.block b e) top where
  balanced := fun c a c' h => by
    obtain ⟨u, c1, h1, h⟩ := bind_eq_ok.mp h
    obtain ⟨a', c2, h2, h⟩ := bind_eq_ok.mp h
    obtain ⟨n, c3, h3, h⟩ := bind_eq_ok.mp h
    cases h
    have h1 : Obx.namedBlockBegin b info c = .ok u c1 := h1
    rw [obx_namedBlockBegin_apply] at h1
    split at h1
    · cases h1
    · cases h1
      obtain ⟨hs, -⟩ := hx.balanced _ _ _ h2
      obtain ⟨hstack, hlimit, -⟩ := obx_namedBlockEnd_frame hs h3
      exact ⟨hstack, hlimit⟩
  run := fun c hc => by
    have hpow : 2^b ≤ 2^16 := Nat.pow_le_pow_right (by decide) hb
    have hhigh : highTop = 2^32 - 2^20 := rfl
    have hp := hc.pos
    have hl := hc.limit
    have h := hx.block_run h0 (by omega) info endInfo (by omega) hl (by omega)
    cases he : Encoder.block b e c.bitpos with
    | none => rwa [he] at h
    | some r => rwa [he] at h

theorem Writes.block_eq_ok {α : Type} {x : Obx α} {e : Encoder α} {top : Nat} (hx : Writes x e top) {b : Nat} (h0 : 1 ≤ b)
    (hb : b ≤ 32) {info endInfo : Info} {c c' : ObCtx} (hl : c.bitlimit < 2^32)
    (htop : c.bitlimit ≤ top) (hwrap : c.bitpos + b + 8 * (2^b - 1) < 2^32)
    {r : Nat × α} :
    Iox.namedBlock (m := .constructBinary) b info endInfo x c = .ok r c' ↔
      ∃ bits, Encoder.block b e c.bitpos = some (r, bits) ∧ c.bitpos + bits.length ≤ c.bitlimit ∧ c' = c.emit bits := by
  have hrun := hx.block_run h0 hb info endInfo hl htop hwrap
  constructor
  · intro h
    split at hrun
    · next r' bits he =>
      split at hrun
      · next hfit =>
        rw [h] at hrun
        cases hrun
        exact ⟨bits, he, hfit, rfl⟩
      · exact absurd hrun (not_fails_of_ok h)
    · exact absurd hrun (not_fails_of_ok h)
  · rintro ⟨bits, he, hfit, rfl⟩
    rw [he] at hrun
    dsimp only at hrun
    rwa [if_pos hfit] at hrun

end Mopa.Io
