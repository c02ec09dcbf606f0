import Mathlib.Data.Nat.Bitwise
import Mathlib.Data.List.Basic
import Mathlib.Tactic.Ring

namespace Varint

open List

def write : Nat → Nat → List UInt8
  | 0, _ => []
  | fuel + 1, v =>
    if v / 128 = 0 then [UInt8.ofNat (v % 128)]
    else UInt8.ofNat (v % 128 + 128) :: write fuel (v / 128)

inductive Failure
  | truncated
  | tooLong
deriving DecidableEq, Repr

/-- At most `fuel` bytes, the next one's bits at `shift`; bits from 64 up fall off. -/
def read : Nat → Nat → Nat → List UInt8 → Except Failure (Nat × List UInt8)
  | 0, _, _, _ => .error .tooLong
  | _ + 1, _, _, [] => .error .truncated
  | fuel + 1, shift, v, b :: bs =>
    let v := v ||| ((b.toNat % 128) <<< shift) % 2 ^ 64
    if b.toNat / 128 = 0 then .ok (v, bs) else read fuel (shift + 7) v bs

theorem read_append (t : List UInt8) : ∀ {fuel shift v : Nat} {bs : List UInt8},
    (∀ {w rest}, read fuel shift v bs = .ok (w, rest) → read fuel shift v (bs ++ t) = .ok (w, rest ++ t)) ∧
      (read fuel shift v bs = .error .tooLong → read fuel shift v (bs ++ t) = .error .tooLong) := by
  intro fuel
  induction fuel with
  | zero =>
    intro shift v bs
    refine ⟨?_, fun _ => rfl⟩
    intro w rest h
    cases h
  | succ fuel ih =>
    intro shift v bs
    cases bs with
    | nil =>
      constructor
      · intro w rest h
        cases h
      · intro h
        cases h
    | cons b bs =>
      simp only [cons_append, read]
      split
      · constructor
        · intro w rest h
          cases h
          rfl
        · intro h
          cases h
      · exact ih

theorem write_length_le : ∀ (fuel v : Nat), (write fuel v).length ≤ fuel := by
  intro fuel
  induction fuel with
  | zero => intro v; exact Nat.le_refl _
  | succ fuel ih =>
    intro v
    unfold write
    split
    · exact Nat.succ_le_succ (Nat.zero_le _)
    · exact Nat.succ_le_succ (ih _)

theorem or_shifted {v w shift : Nat} (hv : v < 2 ^ shift) (hw : w * 2 ^ shift < 2 ^ 64) :
    v ||| (w <<< shift) % 2 ^ 64 = v + w * 2 ^ shift := by
  rw [Nat.shiftLeft_eq, Nat.mod_eq_of_lt hw, Nat.or_comm, Nat.mul_comm, ← Nat.two_pow_add_eq_or_of_lt hv]
  omega

theorem read_write_from (rest : List UInt8) : ∀ (fuel shift v w : Nat),
    v < 2 ^ shift → w < 2 ^ (7 * fuel) → w * 2 ^ shift < 2 ^ 64 →
    read fuel shift v (write fuel w ++ rest) = .ok (v + w * 2 ^ shift, rest) ∨ fuel = 0 := by
  intro fuel
  induction fuel with
  | zero => intro shift v w _ _ _; exact .inr rfl
  | succ fuel ih =>
    intro shift v w hv hw hfit
    left
    have hlow : w % 128 * 2 ^ shift < 2 ^ 64 := Nat.lt_of_le_of_lt (Nat.mul_le_mul_right _ (Nat.mod_le w 128)) hfit
    unfold write
    split
    next hz =>
      have hb : (UInt8.ofNat (w % 128)).toNat = w := by
        rw [UInt8.toNat_ofNat']
        omega
      have hsmall : w % 128 = w := by omega
      rw [cons_append, nil_append]
      unfold read
      rw [hb, if_pos hz, hsmall, or_shifted hv hfit]
    next hz =>
      have hb : (UInt8.ofNat (w % 128 + 128)).toNat = w % 128 + 128 := by
        rw [UInt8.toNat_ofNat']
        omega
      have hgo : ¬ (w % 128 + 128) / 128 = 0 := by omega
      have hbits : (w % 128 + 128) % 128 = w % 128 := by omega
      rw [cons_append]
      unfold read
      rw [hb, if_neg hgo, hbits, or_shifted hv hlow]
      have hpow : 2 ^ (shift + 7) = 2 ^ shift * 128 := Nat.pow_add 2 shift 7
      have hsum : v + w % 128 * 2 ^ shift < 2 ^ (shift + 7) := by
        have : w % 128 * 2 ^ shift ≤ 127 * 2 ^ shift := Nat.mul_le_mul_right _ (by omega)
        omega
      have hsplit : w * 2 ^ shift = w % 128 * 2 ^ shift + w / 128 * 2 ^ (shift + 7) := by
        have hw' : w * 2 ^ shift = (w % 128 + 128 * (w / 128)) * 2 ^ shift := by rw [Nat.mod_add_div]
        rw [hw', hpow, Nat.add_mul, Nat.mul_comm 128, Nat.mul_assoc, Nat.mul_comm 128]
      have hrest : w / 128 < 2 ^ (7 * fuel) := by
        rw [Nat.div_lt_iff_lt_mul (by decide)]
        have : 2 ^ (7 * (fuel + 1)) = 2 ^ (7 * fuel) * 128 := by rw [Nat.mul_add, Nat.pow_add]
        omega
      rcases ih (shift + 7) (v + w % 128 * 2 ^ shift) (w / 128) hsum hrest (by omega) with h | rfl
      · show read fuel (shift + 7) _ (write fuel (w / 128) ++ rest) = _
        rw [h, Nat.add_assoc, ← hsplit]
      · exact absurd (by simpa using hrest) hz

theorem read_write {w : Nat} (hw : w < 2 ^ 64) (rest : List UInt8) :
    read 10 0 0 (write 10 w ++ rest) = .ok (w, rest) := by
  rcases read_write_from rest 10 0 0 w (by decide) (by omega) (by omega) with h | h
  · rw [h]
    simp
  · omega

def zigzag (v : BitVec 64) : BitVec 64 := (v <<< 1) ^^^ v.sshiftRight 63

def unzigzag (u : BitVec 64) : BitVec 64 := (u >>> 1) ^^^ -(u &&& 1#64)

end Varint

namespace Varint

def writeSigned : Nat → Int → List UInt8
  | 0, _ => []
  | fuel + 1, v =>
    let byte := (v % 128).toNat
    if v / 128 = 0 ∧ byte < 64 ∨ v / 128 = -1 ∧ 64 ≤ byte then [UInt8.ofNat byte]
    else UInt8.ofNat (byte + 128) :: writeSigned fuel (v / 128)

def readSigned : Nat → Nat → BitVec 64 → List UInt8 → Except Failure (BitVec 64 × List UInt8)
  | 0, _, _, _ => .error .tooLong
  | _ + 1, _, _, [] => .error .truncated
  | fuel + 1, shift, r, b :: bs =>
    let r := r ||| (BitVec.ofNat 64 (b.toNat % 128) <<< shift)
    if b.toNat / 128 = 0 then
      .ok (if shift + 7 < 64 ∧ 64 ≤ b.toNat % 128 then r ||| ((-1#64) <<< (shift + 7)) else r, bs)
    else readSigned fuel (shift + 7) r bs

theorem shiftLeft_ofInt (x : Int) (shift : Nat) : BitVec.ofInt 64 x <<< shift = BitVec.ofInt 64 (x * 2 ^ shift) := by
  have hpow : ((2 : Int) ^ shift) = ((2 ^ shift : Nat) : Int) := by
    push_cast
    rfl
  rw [← BitVec.mul_twoPow_eq_shiftLeft, BitVec.ofInt_mul, hpow, BitVec.ofInt_natCast]
  congr 1
  apply BitVec.eq_of_toNat_eq
  rw [BitVec.toNat_twoPow, BitVec.toNat_ofNat]

variable {r : BitVec 64}

theorem or_shifted_bits {shift : Nat} (h : r.toNat < 2 ^ shift) (x : BitVec 64) :
    r ||| (x <<< shift) = r + (x <<< shift) := by
  rw [BitVec.add_eq_or_of_and_eq_zero]
  ext i hi
  by_cases hlt : i < shift
  · simp [hlt]
  · have hbit : r[i] = false := by
      rw [← BitVec.getLsbD_eq_getElem, BitVec.getLsbD]
      exact Nat.testBit_lt_two_pow (Nat.lt_of_lt_of_le h (Nat.pow_le_pow_right (by omega) (by omega)))
    simp [hbit]

theorem ofInt_eq_zero {x : Int} {shift : Nat} (h : 64 ≤ shift) : BitVec.ofInt 64 (x * 2 ^ shift) = 0#64 := by
  rw [← shiftLeft_ofInt]
  exact BitVec.shiftLeft_eq_zero h

theorem group_bits {shift byte : Nat} (hr : r.toNat < 2 ^ shift) :
    r ||| (BitVec.ofNat 64 byte <<< shift) = r + BitVec.ofInt 64 ((byte : Int) * 2 ^ shift) := by
  rw [or_shifted_bits hr, ← BitVec.ofInt_natCast, shiftLeft_ofInt]

theorem group_lt {shift byte : Nat} (hr : r.toNat < 2 ^ shift) (hb : byte < 128) :
    (r + BitVec.ofInt 64 ((byte : Int) * 2 ^ shift)).toNat < 2 ^ (shift + 7) := by
  have hcast : ((byte : Int) * 2 ^ shift) = ((byte * 2 ^ shift : Nat) : Int) := by
    push_cast
    rfl
  rw [hcast, BitVec.ofInt_natCast, BitVec.toNat_add, BitVec.toNat_ofNat, Nat.add_mod_mod]
  have hle : byte * 2 ^ shift ≤ 127 * 2 ^ shift := Nat.mul_le_mul_right _ (by omega)
  have hpow : 2 ^ (shift + 7) = 128 * 2 ^ shift := by rw [Nat.pow_add, Nat.mul_comm]
  have hmod := Nat.mod_le (r.toNat + byte * 2 ^ shift) (2 ^ 64)
  omega

variable {fuel shift byte : Nat}

theorem readSigned_more (hr : r.toNat < 2 ^ shift) (hb : byte < 128)
    (bs : List UInt8) : readSigned (fuel + 1) shift r (UInt8.ofNat (byte + 128) :: bs) =
      readSigned fuel (shift + 7) (r + BitVec.ofInt 64 ((byte : Int) * 2 ^ shift)) bs := by
  have hbyte : (UInt8.ofNat (byte + 128)).toNat = byte + 128 := by
    rw [UInt8.toNat_ofNat']
    omega
  have hbits : (byte + 128) % 128 = byte := by omega
  rw [readSigned, hbyte, hbits, group_bits hr, if_neg (by omega)]

theorem readSigned_last (hr : r.toNat < 2 ^ shift) (hb : byte < 128)
    (bs : List UInt8) : readSigned (fuel + 1) shift r (UInt8.ofNat byte :: bs) =
      .ok (r + BitVec.ofInt 64 ((if 64 ≤ byte then (byte : Int) - 128 else byte) * 2 ^ shift), bs) := by
  have hbyte : (UInt8.ofNat byte).toNat = byte := by
    rw [UInt8.toNat_ofNat']
    omega
  rw [readSigned, hbyte, Nat.mod_eq_of_lt hb, group_bits hr, if_pos (by omega)]
  by_cases hsign : 64 ≤ byte
  · have hsplit : ((byte : Int) - 128) * 2 ^ shift = byte * 2 ^ shift + (-1) * 2 ^ (shift + 7) := by ring
    rw [if_pos hsign, hsplit, BitVec.ofInt_add, ← BitVec.add_assoc]
    by_cases htop : shift + 7 < 64
    · rw [if_pos ⟨htop, hsign⟩, or_shifted_bits (group_lt hr hb), ← shiftLeft_ofInt (-1) (shift + 7)]
      rfl
    · have hout : 64 ≤ shift + 7 := by omega
      rw [if_neg (fun h => htop h.1), ofInt_eq_zero hout, BitVec.add_zero]
  · rw [if_neg hsign, if_neg (fun h => hsign h.2)]

theorem read_writeSigned_from (rest : List UInt8) : ∀ (fuel shift : Nat) (r : BitVec 64) (w : Int),
    r.toNat < 2 ^ shift → -(64 * 128 ^ fuel) ≤ w → w < 64 * 128 ^ fuel →
    readSigned (fuel + 1) shift r (writeSigned (fuel + 1) w ++ rest) = .ok (r + BitVec.ofInt 64 (w * 2 ^ shift), rest) := by
  intro fuel
  induction fuel with
  | zero =>
    intro shift r w hr hlow hhigh
    unfold writeSigned
    rw [if_pos (by omega), List.cons_append, List.nil_append, readSigned_last hr (by omega)]
    have hw : (if 64 ≤ (w % 128).toNat then (((w % 128).toNat : Nat) : Int) - 128 else ((w % 128).toNat : Nat)) = w := by
      split <;> omega
    rw [hw]
  | succ fuel ih =>
    intro shift r w hr hlow hhigh
    rw [writeSigned]
    split
    next hlast =>
      rw [List.cons_append, List.nil_append, readSigned_last hr (by omega)]
      have hw : (if 64 ≤ (w % 128).toNat then (((w % 128).toNat : Nat) : Int) - 128 else ((w % 128).toNat : Nat)) = w := by
        split <;> omega
      rw [hw]
    next =>
      have hpow : (128 : Int) ^ (fuel + 1) = 128 ^ fuel * 128 := pow_succ _ _
      rw [List.cons_append, readSigned_more hr (by omega), ih (shift + 7) _ (w / 128) (group_lt hr (by omega))
        (by omega) (by omega), BitVec.add_assoc, ← BitVec.ofInt_add]
      have hsplit : (((w % 128).toNat : Nat) : Int) * 2 ^ shift + w / 128 * 2 ^ (shift + 7) = w * 2 ^ shift := by
        have hdiv : (((w % 128).toNat : Nat) : Int) = w - 128 * (w / 128) := by omega
        rw [hdiv]
        ring
      rw [hsplit]

theorem read_writeSigned {w : Int} (hlow : -2 ^ 63 ≤ w) (hhigh : w < 2 ^ 63) (rest : List UInt8) :
    readSigned 10 0 0 (writeSigned 10 w ++ rest) = .ok (BitVec.ofInt 64 w, rest) := by
  have h := read_writeSigned_from rest 9 0 0 w (by decide) (by omega) (by omega)
  rw [h]
  simp

end Varint

namespace ByteCodec

/-- What is left of a buffer is read; nothing is answered where the code would index past it or panic. -/
abbrev Reader (α : Type) := StateT (List UInt8) Option α

def byte : Reader UInt8 := fun bs =>
  match bs with
  | [] => none
  | b :: bs => some (b, bs)

def uleb : Reader Nat := fun bs => (Varint.read 10 0 0 bs).toOption

def sleb : Reader (BitVec 64) := fun bs => (Varint.readSigned 10 0 0 bs).toOption

def count {α : Type} (r : Reader α) : Nat → Reader (List α)
  | 0 => return []
  | n + 1 => do
    let a ← r
    let as ← count r n
    return a :: as

/-- The bytes are read as the value, and none after them. -/
def Reads {α : Type} (enc : List UInt8) (r : Reader α) (a : α) : Prop := ∀ rest, r (enc ++ rest) = some (a, rest)

namespace Reads

variable {α β : Type} {enc enc' : List UInt8}

theorem pure (a : α) : Reads [] (pure a : Reader α) a := fun _ => rfl

variable {r : Reader α}

theorem bind {f : α → Reader β} {a : α} {b : β} (hr : Reads enc r a) (hf : Reads enc' (f a) b) :
    Reads (enc ++ enc') (r >>= f) b := by
  intro rest
  show (r (enc ++ enc' ++ rest)).bind (fun p => f p.1 p.2) = _
  rw [List.append_assoc, hr (enc' ++ rest)]
  exact hf rest

theorem map {a : α} (f : α → β) (hr : Reads enc r a) : Reads enc (do return f (← r)) (f a) := by
  rw [← List.append_nil enc]
  exact bind (f := fun a => Pure.pure (f a)) hr (pure (f a))

theorem byte (b : UInt8) : Reads [b] byte b := fun _ => rfl

theorem uleb {v : Nat} (hv : v < 2 ^ 64) : Reads (Varint.write 10 v) uleb v := by
  intro rest
  unfold ByteCodec.uleb
  rw [Varint.read_write hv]
  rfl

theorem sleb {v : Int} (hlow : -2 ^ 63 ≤ v) (hhigh : v < 2 ^ 63) :
    Reads (Varint.writeSigned 10 v) sleb (BitVec.ofInt 64 v) := by
  intro rest
  unfold ByteCodec.sleb
  rw [Varint.read_writeSigned hlow hhigh]
  rfl

theorem count {w : α → List UInt8} (hr : ∀ a, Reads (w a) r a) : ∀ as : List α,
    Reads (as.flatMap w) (count r as.length) as := by
  intro as
  induction as with
  | nil => exact pure []
  | cons a as ih =>
    rw [List.flatMap_cons]
    exact (hr a).bind (map (a :: ·) ih)

end Reads

end ByteCodec
