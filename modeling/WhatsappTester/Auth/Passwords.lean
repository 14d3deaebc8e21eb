import WhatsappTester.Atomic.Floating
import WhatsappTester.Atomic.Hex
import WhatsappTester.Routes

namespace WhatsappTester.Auth.Passwords

open Atomic.Floating Atomic.Hex

/-! `Number` of a text -/

def digitsIn (base : Nat) (text : List Char) : Option Nat :=
  if text = [] then none
  else text.foldl (fun n c => n.bind (fun n =>
    ((value c).filter (fun d => decide (d < base))).map (base * n + ·))) (some 0)

def powerOfTen (e : Int) : Rat :=
  if 0 ≤ e then (10 ^ e.toNat : Nat) else mkRat 1 (10 ^ (-e).toNat)

def isExponentSign (c : Char) : Bool := c = 'e' || c = 'E'

/-- Digits with at most one point among them, and perhaps an exponent. -/
def decimal (text : List Char) : Option Rat :=
  let mantissa := text.takeWhile (fun c => !isExponentSign c)
  let whole := mantissa.takeWhile (· ≠ '.')
  let fraction := (mantissa.dropWhile (· ≠ '.')).tail
  let exponent : Option Int :=
    match text.dropWhile (fun c => !isExponentSign c) with
    | [] => some 0
    | _ :: '+' :: rest => (digitsIn 10 rest).map Int.ofNat
    | _ :: '-' :: rest => (digitsIn 10 rest).map (fun n => -Int.ofNat n)
    | _ :: rest => (digitsIn 10 rest).map Int.ofNat
  (digitsIn 10 (whole ++ fraction)).bind (fun n => exponent.map (fun e =>
    n * powerOfTen (e - fraction.length)))

def unsigned (text : List Char) : Double :=
  if text = "Infinity".toList then .infinite false
  else ((decimal text).map toDouble).getD .nan

def inBase (base : Nat) (text : List Char) : Double :=
  ((digitsIn base text).map (fun n => toDouble n)).getD .nan

def number (s : String) : Double :=
  match (Routes.trim s).toList with
  | [] => .finite 0
  | '+' :: rest => unsigned rest
  | '-' :: rest => neg (unsigned rest)
  | '0' :: c :: rest =>
    if c = 'x' ∨ c = 'X' then inBase 16 rest
    else if c = 'o' ∨ c = 'O' then inBase 8 rest
    else if c = 'b' ∨ c = 'B' then inBase 2 rest
    else unsigned ('0' :: c :: rest)
  | text => unsigned text

structure ScryptOptions where
  N : Double
  r : Double
  p : Double
  maxmem : Double
  deriving DecidableEq

/-- Node's `crypto.scryptSync`: the key lengths and options that it accepts, and the key
of the length asked for that it derives from a password and a salt. -/
structure Scrypt where
  accepts : Nat → ScryptOptions → Bool
  derive : String → Bytes → Nat → ScryptOptions → Bytes
  length_derive : ∀ password salt keylen options,
    (derive password salt keylen options).length = keylen

inductive CryptoError
  | invalidScryptParams
  deriving DecidableEq

def Scrypt.scryptSync (scrypt : Scrypt) (password : String) (salt : Bytes) (keylen : Nat)
    (options : ScryptOptions) : Except CryptoError Bytes :=
  if scrypt.accepts keylen options then .ok (scrypt.derive password salt keylen options)
  else .error .invalidScryptParams

def N : Nat := 16384
def r : Nat := 8
def p : Nat := 1
def keylen : Nat := 64

def costs (n rr pp : Double) : ScryptOptions :=
  ⟨n, rr, pp, mul (mul (mul (toDouble 128) n) rr) (toDouble 2)⟩

def defaultCosts : ScryptOptions := costs (toDouble N) (toDouble r) (toDouble p)

def record (n r p salt hash : List Char) : String :=
  String.ofList ([':'].intercalate ["scrypt".toList, n, r, p, salt, hash])

def decimalText (n : Nat) : List Char := (toString n).toList

def hashPassword (scrypt : Scrypt) (salt : Bytes) (password : String) :
    Except CryptoError String := do
  let hash ← scrypt.scryptSync password salt keylen defaultCosts
  pure (record (decimalText N) (decimalText r) (decimalText p) (encode salt) (encode hash))

def parse (stored : String) : Option (ScryptOptions × Bytes × Bytes) :=
  match stored.toList.splitOn ':' with
  | [name, n, r, p, saltHex, hashHex] =>
    if name = "scrypt".toList then
      some (costs (number (String.ofList n)) (number (String.ofList r)) (number (String.ofList p)),
        decode saltHex, decode hashHex)
    else none
  | _ => none

def verifyPassword (scrypt : Scrypt) (password stored : String) : Except CryptoError Bool :=
  match parse stored with
  | none => .ok false
  | some (options, salt, expected) => do
    let actual ← scrypt.scryptSync password salt expected.length options
    pure (decide (actual.length = expected.length) && decide (actual = expected))

def isNumeral (text : List Char) : Prop := text ≠ [] ∧ ∀ c ∈ text, c.isDigit

def isHex (text : List Char) : Prop := ∀ c ∈ text, (value c).isSome

/-- Three decimal costs, a salt in pairs of hex digits, and a key of 64 bytes. -/
def WellFormed (stored : String) : Prop :=
  ∃ n r p salt hash, stored = record n r p salt hash ∧ (isNumeral n ∧ isNumeral r ∧ isNumeral p) ∧
    (isHex salt ∧ salt ≠ [] ∧ salt.length % 2 = 0) ∧ isHex hash ∧ hash.length = 2 * keylen

/-- The check of a password gives an answer, and says yes to nothing but the 64-byte key of
the password in a well-formed record. -/
structure Sound (scrypt : Scrypt) (password stored : String) : Prop where
  answers : ∃ answer, verifyPassword scrypt password stored = .ok answer
  derived : verifyPassword scrypt password stored = .ok true →
    ∃ n r p salt hash, stored = record n r p salt hash ∧
      decode hash = scrypt.derive password (decode salt) keylen
        (costs (number (String.ofList n)) (number (String.ofList r)) (number (String.ofList p)))
  strict : ¬ WellFormed stored → verifyPassword scrypt password stored ≠ .ok true

/-- A record that comes in six fields is well formed, and `scryptSync` accepts its costs. -/
def Proper (accepts : Nat → ScryptOptions → Bool) (stored : String) : Prop :=
  ∀ options salt expected, parse stored = some (options, salt, expected) →
    accepts expected.length options = true ∧ WellFormed stored

section Records

theorem isNumeral_colon {text : List Char} (h : isNumeral text) : ':' ∉ text :=
  fun hmem => absurd (h.2 ':' hmem) (by decide)

theorem isHex_colon {text : List Char} (h : isHex text) : ':' ∉ text :=
  fun hmem => absurd (h ':' hmem) (by decide)

theorem isHex_encode (bytes : Bytes) : isHex (encode bytes) := fun _ h => value_encode h

/-- The colons cut a record where its fields were joined. -/
theorem parse_record {n r p salt hash : List Char} (hn : ':' ∉ n) (hr : ':' ∉ r) (hp : ':' ∉ p)
    (hsalt : ':' ∉ salt) (hhash : ':' ∉ hash) :
    parse (record n r p salt hash) =
      some (costs (number (String.ofList n)) (number (String.ofList r)) (number (String.ofList p)),
        decode salt, decode hash) := by
  have hsplit : (record n r p salt hash).toList.splitOn ':' =
      ["scrypt".toList, n, r, p, salt, hash] := by
    rw [record, String.toList_ofList]
    refine List.splitOn_intercalate ':' ?_ (by simp)
    simp only [List.forall_mem_cons, List.not_mem_nil, false_implies, implies_true, and_true]
    exact ⟨by decide, hn, hr, hp, hsalt, hhash⟩
  rw [parse, hsplit]
  exact if_pos rfl

theorem parse_wellFormed {stored : String} (h : WellFormed stored) :
    ∃ n r p salt hash, stored = record n r p salt hash ∧ (decode hash).length = keylen ∧
      parse stored = some
        (costs (number (String.ofList n)) (number (String.ofList r)) (number (String.ofList p)),
          decode salt, decode hash) := by
  obtain ⟨n, r, p, salt, hash, rfl, ⟨hn, hr, hp⟩, ⟨hsalt, _⟩, hhash, hlength⟩ := h
  refine ⟨n, r, p, salt, hash, rfl, ?_, parse_record (isNumeral_colon hn) (isNumeral_colon hr)
    (isNumeral_colon hp) (isHex_colon hsalt) (isHex_colon hhash)⟩
  rw [length_decode hhash, hlength]
  exact Nat.mul_div_cancel_left keylen Nat.two_pos

variable {scrypt : Scrypt} {password stored : String} {options : ScryptOptions}
  {salt expected : Bytes}

theorem verifyPassword_accepted (hparse : parse stored = some (options, salt, expected))
    (haccepts : scrypt.accepts expected.length options = true) :
    verifyPassword scrypt password stored =
      .ok (decide (scrypt.derive password salt expected.length options = expected)) := by
  have hlength := scrypt.length_derive password salt expected.length options
  rw [verifyPassword, hparse]
  simp only [Scrypt.scryptSync, haccepts, ↓reduceIte]
  change Except.ok _ = _
  rw [hlength, decide_eq_true rfl, Bool.true_and]

theorem verifyPassword_refused (hparse : parse stored = some (options, salt, expected))
    (haccepts : ¬ scrypt.accepts expected.length options = true) :
    verifyPassword scrypt password stored = .error .invalidScryptParams := by
  rw [verifyPassword, hparse]
  simp only [Scrypt.scryptSync, haccepts]
  rfl

end Records

def obliging (accepts : Nat → ScryptOptions → Bool) (expected : Bytes) : Scrypt where
  accepts := accepts
  derive _ _ keylen _ := if keylen = expected.length then expected else List.replicate keylen 0
  length_derive _ _ keylen _ := by
    split
    · next h => exact h.symm
    · exact List.length_replicate

theorem proper_of_sound {accepts : Nat → ScryptOptions → Bool} {password stored : String}
    (h : ∀ scrypt : Scrypt, scrypt.accepts = accepts → Sound scrypt password stored) :
    Proper accepts stored := by
  intro options salt expected hparse
  have hsound := h (obliging accepts expected) rfl
  have haccepts : accepts expected.length options = true := by
    by_contra hrefused
    obtain ⟨answer, hanswer⟩ := hsound.answers
    have hthrows :=
      @verifyPassword_refused (obliging accepts expected) password _ _ _ _ hparse hrefused
    rw [hthrows] at hanswer
    cases hanswer
  refine ⟨haccepts, ?_⟩
  by_contra hmalformed
  refine hsound.strict hmalformed ?_
  rw [verifyPassword_accepted hparse haccepts]
  simp [obliging]

theorem sound_of_proper {scrypt : Scrypt} {password stored : String}
    (h : Proper scrypt.accepts stored) : Sound scrypt password stored := by
  cases hparse : parse stored with
  | none =>
    have hno : verifyPassword scrypt password stored = .ok false := by
      rw [verifyPassword, hparse]
    exact ⟨⟨false, hno⟩, fun hyes => by simp [hno] at hyes, fun _ hyes => by simp [hno] at hyes⟩
  | some read =>
    obtain ⟨options, salt, expected⟩ := read
    obtain ⟨haccepts, hwellFormed⟩ := h options salt expected hparse
    have hverify := @verifyPassword_accepted scrypt password _ _ _ _ hparse haccepts
    refine ⟨⟨_, hverify⟩, fun hyes => ?_, fun hmalformed => absurd hwellFormed hmalformed⟩
    rw [hverify] at hyes
    have hkey := of_decide_eq_true (Except.ok.inj hyes)
    obtain ⟨n, r, p, saltHex, hash, hrecord, hlength, hread⟩ := parse_wellFormed hwellFormed
    rw [hparse, Option.some.injEq, Prod.mk.injEq, Prod.mk.injEq] at hread
    obtain ⟨rfl, rfl, rfl⟩ := hread
    exact ⟨n, r, p, saltHex, hash, hrecord, by rw [← hlength]; exact hkey.symm⟩

/-- Whatever keys are derived, the check of a password is sound on exactly the proper records. -/
theorem sound_iff_proper (accepts : Nat → ScryptOptions → Bool) (password stored : String) :
    (∀ scrypt : Scrypt, scrypt.accepts = accepts → Sound scrypt password stored) ↔
      Proper accepts stored := by
  constructor
  · exact proper_of_sound
  · rintro h scrypt rfl
    exact sound_of_proper h

def zeros : Scrypt where
  accepts _ _ := true
  derive _ _ keylen _ := List.replicate keylen 0
  length_derive _ _ _ _ := List.length_replicate

/-- A record without a key lets everybody in. -/
theorem empty_key_verified : ¬ Sound zeros "guess" "scrypt:16384:8:1:00:" := by
  intro h
  have hyes : verifyPassword zeros "guess" "scrypt:16384:8:1:00:" = .ok true := by decide +kernel
  have hparse : parse "scrypt:16384:8:1:00:" = some (defaultCosts, [0], []) := by decide +kernel
  obtain ⟨n, r, p, salt, hash, _, hlength, hread⟩ :=
    parse_wellFormed (not_not.mp (fun hmalformed => h.strict hmalformed hyes))
  rw [hparse, Option.some.injEq, Prod.mk.injEq, Prod.mk.injEq] at hread
  rw [← hread.2.2] at hlength
  exact absurd hlength (by decide)

theorem decode_costs :
    costs (number (String.ofList (decimalText N))) (number (String.ofList (decimalText r)))
      (number (String.ofList (decimalText p))) = defaultCosts := by
  decide +kernel

theorem parse_hashed (salt hash : Bytes) :
    parse (record (decimalText N) (decimalText r) (decimalText p) (encode salt) (encode hash)) =
      some (defaultCosts, salt, hash) := by
  rw [parse_record (by decide) (by decide) (by decide) (isHex_colon (isHex_encode _))
    (isHex_colon (isHex_encode _)), decode_costs, decode_encode, decode_encode]

/-- What `hashPassword` writes is read back as the costs, the salt and the key it was made
of, and the check of a password compares keys. -/
theorem verify_hashed (scrypt : Scrypt) (haccepts : scrypt.accepts keylen defaultCosts = true)
    (salt : Bytes) (password : String) :
    ∃ stored, hashPassword scrypt salt password = .ok stored ∧
      parse stored =
        some (defaultCosts, salt, scrypt.derive password salt keylen defaultCosts) ∧
      verifyPassword scrypt password stored = .ok true ∧
      ∀ other, verifyPassword scrypt other stored = .ok true ↔
        scrypt.derive other salt keylen defaultCosts =
          scrypt.derive password salt keylen defaultCosts := by
  have hlength := scrypt.length_derive password salt keylen defaultCosts
  have hhash : hashPassword scrypt salt password = .ok (record (decimalText N) (decimalText r)
      (decimalText p) (encode salt)
      (encode (scrypt.derive password salt keylen defaultCosts))) := by
    rw [hashPassword, Scrypt.scryptSync, if_pos haccepts]
    rfl
  have hparse := parse_hashed salt (scrypt.derive password salt keylen defaultCosts)
  have hverify : ∀ other, verifyPassword scrypt other _ = .ok _ :=
    fun other => verifyPassword_accepted hparse (by rw [hlength]; exact haccepts)
  rw [hlength] at hverify
  refine ⟨_, hhash, hparse, ?_, fun other => ?_⟩
  · rw [hverify, decide_eq_true rfl]
  · rw [hverify, Except.ok.injEq, decide_eq_true_eq]

theorem verify_hashed_zeros :
    ∃ stored, hashPassword zeros [0x00, 0x9f] "correct horse battery staple" = .ok stored ∧
      verifyPassword zeros "correct horse battery staple" stored = .ok true := by
  obtain ⟨stored, hhash, _, hyes, _⟩ :=
    verify_hashed zeros rfl [0x00, 0x9f] "correct horse battery staple"
  exact ⟨stored, hhash, hyes⟩

end WhatsappTester.Auth.Passwords
