import Mathlib.Logic.Basic

namespace WhatsappTester.Atomic.Hex

abbrev Bytes := List UInt8

def digit (n : Nat) : Char := Char.ofNat (if n < 10 then 0x30 + n else 0x57 + n)

def value (c : Char) : Option Nat :=
  if 0x30 ≤ c.toNat ∧ c.toNat ≤ 0x39 then some (c.toNat - 0x30)
  else if 0x61 ≤ c.toNat ∧ c.toNat ≤ 0x66 then some (c.toNat - 0x57)
  else if 0x41 ≤ c.toNat ∧ c.toNat ≤ 0x46 then some (c.toNat - 0x37)
  else none

def encodeByte (b : UInt8) : List Char := [digit (b.toNat / 16), digit (b.toNat % 16)]

def encode (bytes : Bytes) : List Char := bytes.flatMap encodeByte

/-- Reading stops before the first pair that is not two digits. -/
def decode : List Char → Bytes
  | c :: c' :: rest =>
    match value c, value c' with
    | some high, some low => UInt8.ofNat (16 * high + low) :: decode rest
    | _, _ => []
  | _ => []

theorem value_digit : ∀ n < 16, value (digit n) = some n := by decide

theorem decode_encode (bytes : Bytes) : decode (encode bytes) = bytes := by
  induction bytes with
  | nil => rfl
  | cons b bytes ih =>
    have hb : b.toNat < 256 := b.toNat_lt
    have hhigh := value_digit (b.toNat / 16) (by omega)
    have hlow := value_digit (b.toNat % 16) (by omega)
    have hsplit : 16 * (b.toNat / 16) + b.toNat % 16 = b.toNat := Nat.div_add_mod b.toNat 16
    have hcons : encode (b :: bytes) =
        digit (b.toNat / 16) :: digit (b.toNat % 16) :: encode bytes := rfl
    rw [hcons, decode, hhigh, hlow]
    simp only [ih, hsplit, UInt8.ofNat_toNat]

/-- A digit is all that an encoding has. -/
theorem value_encode {bytes : Bytes} {c : Char} (h : c ∈ encode bytes) : (value c).isSome := by
  obtain ⟨b, _, hc⟩ := List.mem_flatMap.mp h
  have hb : b.toNat < 256 := b.toNat_lt
  simp only [encodeByte, List.mem_cons, List.not_mem_nil, or_false] at hc
  rcases hc with rfl | rfl
  · rw [value_digit _ (by omega)]
    rfl
  · rw [value_digit _ (by omega)]
    rfl

/-- Where all characters are digits, every pair gives a byte. -/
theorem length_decode {text : List Char} (h : ∀ c ∈ text, (value c).isSome) :
    (decode text).length = text.length / 2 := by
  induction text using decode.induct with
  | case1 c c' rest high low hc hc' ih =>
    have hrest : ∀ x ∈ rest, (value x).isSome :=
      fun x hx => h x (List.mem_cons_of_mem _ (List.mem_cons_of_mem _ hx))
    rw [decode, hc, hc']
    simp only [List.length_cons, ih hrest]
    omega
  | case2 c c' rest hnone =>
    obtain ⟨high, hhigh⟩ := Option.isSome_iff_exists.mp (h c List.mem_cons_self)
    obtain ⟨low, hlow⟩ := Option.isSome_iff_exists.mp
      (h c' (List.mem_cons_of_mem _ List.mem_cons_self))
    exact absurd hlow (fun hlow => hnone high low hhigh hlow)
  | case3 text hshort =>
    match text, hshort with
    | [], _ => rfl
    | [_], _ => simp [decode]
    | c :: c' :: rest, hshort => exact absurd rfl (hshort c c' rest)

end WhatsappTester.Atomic.Hex
