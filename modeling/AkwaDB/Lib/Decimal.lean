import AkwaDB.Lib.Bytes

/-!
# AkwaDB.Lib.Decimal

Signed 64-bit integers as decimal text.

* `parseInt` — an optional sign and at least one digit, within the range of `int64`.
* `formatInt` — the shortest such text.
* `parseInt_formatInt` — reading it back.
-/

namespace AkwaDB

def digit (b : UInt8) : Option Nat :=
  if 48 ≤ b.toNat ∧ b.toNat ≤ 57 then some (b.toNat - 48) else none

def parseDigits : Nat → Bytes → Option Nat
  | n, [] => some n
  | n, b :: bs => (digit b).bind fun d => parseDigits (10 * n + d) bs

def splitSign : Bytes → Bool × Bytes
  | 45 :: ds => (true, ds)
  | 43 :: ds => (false, ds)
  | ds => (false, ds)

def parseInt (b : Bytes) : Option Int64 :=
  let (neg, ds) := splitSign b
  if ds = [] then none
  else
    (parseDigits 0 ds).bind fun n =>
      if neg then if n ≤ 2 ^ 63 then some (Int64.ofInt (-n)) else none
      else if n < 2 ^ 63 then some (Int64.ofInt n) else none

def formatInt (n : Int64) : Bytes :=
  let ds := (Nat.toDigits 10 n.toInt.natAbs).map fun c => UInt8.ofNat c.toNat
  if n.toInt < 0 then 45 :: ds else ds

theorem parseDigits_append (n : Nat) (bs cs : Bytes) :
    parseDigits n (bs ++ cs) = (parseDigits n bs).bind fun m => parseDigits m cs := by
  induction bs generalizing n with
  | nil => rfl
  | cons b bs ih =>
    rw [List.cons_append, parseDigits, parseDigits]
    cases digit b with
    | none => rfl
    | some d => exact ih _

theorem digit_digitChar {d : Nat} (h : d < 10) : digit (UInt8.ofNat d.digitChar.toNat) = some d := by
  revert d
  decide

theorem parseDigits_toDigits (n : Nat) :
    parseDigits 0 ((Nat.toDigits 10 n).map fun c => UInt8.ofNat c.toNat) = some n := by
  induction n using Nat.strong_induction_on with
  | _ n ih =>
    rw [Nat.toDigits_eq_if (by decide)]
    split
    · rename_i hlt
      rw [List.map_cons, parseDigits, digit_digitChar hlt]
      simp [parseDigits]
    · have hlast : n % 10 < 10 := Nat.mod_lt _ (by decide)
      rw [List.map_append, parseDigits_append, ih (n / 10) (by omega), Option.bind_some, List.map_cons,
        parseDigits, digit_digitChar hlast]
      simp only [Option.bind_some, List.map_nil, parseDigits, Option.some.injEq]
      omega

theorem splitSign_of_digits {n m : Nat} {ds : Bytes} (h : parseDigits n ds = some m) :
    splitSign ds = (false, ds) := by
  cases ds with
  | nil => rfl
  | cons b bs =>
    have h45 : b ≠ 45 := by
      rintro rfl
      cases h
    have h43 : b ≠ 43 := by
      rintro rfl
      cases h
    unfold splitSign
    split
    · rename_i heq
      cases heq
      exact absurd rfl h45
    · rename_i heq
      cases heq
      exact absurd rfl h43
    · rfl

theorem parseInt_formatInt (n : Int64) : parseInt (formatInt n) = some n := by
  have hdigits := parseDigits_toDigits n.toInt.natAbs
  have hne : (Nat.toDigits 10 n.toInt.natAbs).map (fun c => UInt8.ofNat c.toNat) ≠ [] := by
    simp [Nat.toDigits_ne_nil]
  have hlow := n.le_toInt
  have hhigh := n.toInt_lt
  rw [formatInt, parseInt]
  by_cases hneg : n.toInt < 0
  · have hval : (-(n.toInt.natAbs : Int)) = n.toInt := by omega
    have hle : n.toInt.natAbs ≤ 2 ^ 63 := by omega
    simp only [if_pos hneg, splitSign, if_neg hne, hdigits, Option.bind_some, if_true, if_pos hle, hval,
      Int64.ofInt_toInt]
  · have hval : (n.toInt.natAbs : Int) = n.toInt := by omega
    have hlt : n.toInt.natAbs < 2 ^ 63 := by omega
    simp only [if_neg hneg, splitSign_of_digits hdigits, if_neg hne, hdigits, Option.bind_some,
      Bool.false_eq_true, if_false, if_pos hlt, hval, Int64.ofInt_toInt]

end AkwaDB
