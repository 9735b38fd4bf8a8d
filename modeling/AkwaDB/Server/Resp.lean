import AkwaDB.Lib.Decimal
import Mathlib.Data.List.DropRight

/-!
# AkwaDB.Server.Resp

Requests on the wire: an array of bulk strings, each with its length in front.

`parseRESP` reads the lengths line by line and the strings by their lengths, so that an argument may hold any bytes. A
call returns what it read, what is left of the input, and the sizes of the buffers it made for the lengths it was told.

`parseRESP_exact`: requests sent one behind the other are read one by one, and nothing behind them. No buffer is made
for a length above the limits.
-/

namespace AkwaDB
namespace Resp

def maxPayloadSize : Int64 := 67108864

def maxArrayLength : Int64 := 65536

inductive ParseError where
  | eof
  | arrayLength (text : Bytes)
  | expectedBulk (line : Bytes)
  | bulkLength (text : Bytes)
  | oversized (strLen : Int64)
  | shortBulk
  | missingCRLF
  deriving DecidableEq

/-- What a call gives, what it leaves unread, and the buffers it made. -/
structure Outcome (α : Type) where
  result : Except ParseError α
  rest : Bytes
  buffers : List Nat

/-- `ReadString('\n')` and `TrimRight`: the line without its end, and what follows. -/
def readLine (bs : Bytes) : Option (Bytes × Bytes) :=
  match bs.dropWhile (· != 10) with
  | [] => none
  | nl :: rest => some ((bs.takeWhile (· != 10) ++ [nl]).rdropWhile (fun b => b == 13 || b == 10), rest)

def readBulk (bs : Bytes) : Outcome Bytes :=
  match readLine bs with
  | none => ⟨.error .eof, [], []⟩
  | some (lenLine, rest) =>
    if lenLine.head? ≠ some 36 then ⟨.error (.expectedBulk lenLine), rest, []⟩
    else
      match (parseInt lenLine.tail).filter fun n => decide (-1 ≤ n) with
      | none => ⟨.error (.bulkLength lenLine.tail), rest, []⟩
      | some strLen =>
        if strLen = -1 then ⟨.ok [], rest, []⟩
        else if maxPayloadSize < strLen then ⟨.error (.oversized strLen), rest, []⟩
        else
          let n := strLen.toNatClampNeg
          if rest.length < n + 2 then ⟨.error .shortBulk, [], [n + 2]⟩
          else if (rest.drop n).take 2 ≠ [13, 10] then ⟨.error .missingCRLF, rest.drop (n + 2), [n + 2]⟩
          else ⟨.ok (rest.take n), rest.drop (n + 2), [n + 2]⟩

def readBulks : Nat → Bytes → Outcome (List Bytes)
  | 0, bs => ⟨.ok [], bs, []⟩
  | n + 1, bs =>
    let first := readBulk bs
    match first.result with
    | .error e => ⟨.error e, first.rest, first.buffers⟩
    | .ok a =>
      let others := readBulks n first.rest
      ⟨others.result.map (a :: ·), others.rest, first.buffers ++ others.buffers⟩

/-- `fields` is `strings.Fields`, for a request that is no array. -/
def parseRESP (fields : Bytes → List Bytes) (bs : Bytes) : Outcome (List Bytes) :=
  match readLine bs with
  | none => ⟨.error .eof, [], []⟩
  | some (line, rest) =>
    if line = [] then ⟨.ok [], rest, []⟩
    else if line.head? ≠ some 42 then ⟨.ok (fields line), rest, []⟩
    else
      match (parseInt line.tail).filter fun n => decide (-1 ≤ n ∧ n ≤ maxArrayLength) with
      | none => ⟨.error (.arrayLength line.tail), rest, []⟩
      | some count =>
        if count = -1 then ⟨.ok [], rest, []⟩
        else
          let n := count.toNatClampNeg
          let args := readBulks n rest
          { args with buffers := n :: args.buffers }

def parseMany (fields : Bytes → List Bytes) : Nat → Bytes → List (Except ParseError (List Bytes)) × Bytes
  | 0, bs => ([], bs)
  | n + 1, bs =>
    let first := parseRESP fields bs
    let others := parseMany fields n first.rest
    (first.result :: others.1, others.2)

def lengthLine (mark : UInt8) (n : Nat) : Bytes := mark :: formatInt (Int64.ofNat n) ++ [13, 10]

def encodeBulk (a : Bytes) : Bytes := lengthLine 36 a.length ++ (a ++ [13, 10])

def encodeRequest (args : List Bytes) : Bytes := lengthLine 42 args.length ++ args.flatMap encodeBulk

theorem readLine_append {line : Bytes} (rest : Bytes) (h : ∀ b ∈ line, b ≠ 10 ∧ b ≠ 13) :
    readLine (line ++ [13, 10] ++ rest) = some (line, rest) := by
  have hstop : ∀ b ∈ line ++ [13], (b != 10) = true := by
    intro b hb
    rcases List.mem_append.mp hb with hb | hb
    · exact bne_iff_ne.mpr (h b hb).1
    · rw [List.mem_singleton.mp hb]
      rfl
  have hsplit : line ++ [13, 10] ++ rest = (line ++ [13]) ++ 10 :: rest := by simp
  have hdrop : (line ++ [13, 10] ++ rest).dropWhile (· != 10) = 10 :: rest := by
    rw [hsplit, List.dropWhile_append_of_pos hstop]
    rfl
  have htake : (line ++ [13, 10] ++ rest).takeWhile (· != 10) = line ++ [13] := by
    rw [hsplit, List.takeWhile_append_of_pos hstop]
    simp
  rw [readLine, hdrop, htake]
  dsimp only
  rw [List.rdropWhile_concat_pos _ _ _ rfl, List.rdropWhile_concat_pos _ _ _ rfl, List.rdropWhile_eq_self_iff.mpr]
  intro hne
  have := h _ (List.getLast_mem hne)
  simp [this.1, this.2]

theorem digits_ne {n m : Nat} {ds : Bytes} (h : parseDigits n ds = some m) : ∀ b ∈ ds, b ≠ 10 ∧ b ≠ 13 := by
  induction ds generalizing n with
  | nil => exact fun b hb => nomatch hb
  | cons d ds ih =>
    obtain ⟨v, hv, hrest⟩ := Option.bind_eq_some_iff.mp h
    intro b hb
    rcases List.mem_cons.mp hb with rfl | hb
    · constructor <;> rintro rfl <;> cases hv
    · exact ih hrest b hb

theorem readLine_lengthLine {mark : UInt8} (hmark : mark ≠ 10 ∧ mark ≠ 13) {n : Nat} (hn : n < 2 ^ 63) (rest : Bytes) :
    readLine (lengthLine mark n ++ rest) = some (mark :: formatInt (Int64.ofNat n), rest) := by
  refine readLine_append rest fun b hb => ?_
  rcases List.mem_cons.mp hb with rfl | hb
  · exact hmark
  · have hint : (Int64.ofNat n).toInt = n := Int64.toInt_ofNat_of_lt hn
    rw [formatInt, hint, if_neg (by omega)] at hb
    exact digits_ne (parseDigits_toDigits _) b hb

/-! ## Requests are read back -/

def Fits (a : Bytes) : Prop := a.length ≤ 67108864

theorem ofNat_facts {n : Nat} (h : n < 2 ^ 63) :
    (-1 : Int64) ≤ Int64.ofNat n ∧ Int64.ofNat n ≠ -1 ∧ (Int64.ofNat n).toNatClampNeg = n := by
  have hint : (Int64.ofNat n).toInt = n := Int64.toInt_ofNat_of_lt h
  have hone : (-1 : Int64).toInt = -1 := rfl
  refine ⟨?_, ?_, ?_⟩
  · rw [Int64.le_iff_toInt_le, hint, hone]
    omega
  · rw [ne_eq, ← Int64.toInt_inj, hint, hone]
    omega
  · rw [Int64.toNatClampNeg, hint, Int.toNat_natCast]

theorem readBulk_encode {a : Bytes} (h : Fits a) (rest : Bytes) :
    readBulk (encodeBulk a ++ rest) = ⟨.ok a, rest, [a.length + 2]⟩ := by
  rw [Fits] at h
  obtain ⟨hle, hne, hclamp⟩ := @ofNat_facts a.length (by omega)
  have hmax : ¬maxPayloadSize < Int64.ofNat a.length := by
    rw [Int64.lt_iff_toInt_lt, Int64.toInt_ofNat_of_lt (by omega)]
    show ¬(67108864 : Int) < a.length
    omega
  have hlen : ¬(a ++ [13, 10] ++ rest).length < a.length + 2 := by simp
  have hcrlf : ((a ++ [13, 10] ++ rest).drop a.length).take 2 = [13, 10] := by simp
  rw [readBulk, encodeBulk, List.append_assoc, readLine_lengthLine (by decide) (by omega)]
  simp only [List.head?_cons, List.tail_cons, parseInt_formatInt, ne_eq, not_true_eq_false, if_false, Option.filter_some,
    hle, decide_true, if_true, hne, hmax, hclamp]
  rw [if_neg hlen, if_neg (not_not.mpr hcrlf)]
  simp

theorem readBulks_encode {args : List Bytes} (h : ∀ a ∈ args, Fits a) (rest : Bytes) :
    (readBulks args.length (args.flatMap encodeBulk ++ rest)).result = .ok args ∧
      (readBulks args.length (args.flatMap encodeBulk ++ rest)).rest = rest := by
  induction args with
  | nil => exact ⟨rfl, rfl⟩
  | cons a args ih =>
    obtain ⟨hresult, hrest⟩ := ih fun b hb => h b (List.mem_cons_of_mem _ hb)
    rw [List.flatMap_cons, List.append_assoc, List.length_cons, readBulks, readBulk_encode (h a List.mem_cons_self)]
    dsimp only
    rw [hresult, hrest]
    exact ⟨rfl, rfl⟩

def Request (args : List Bytes) : Prop := 1 ≤ args.length ∧ args.length ≤ 65536 ∧ ∀ a ∈ args, Fits a

variable {fields : Bytes → List Bytes}

theorem parseRESP_encode {args : List Bytes} (h : Request args) (rest : Bytes) :
    (parseRESP fields (encodeRequest args ++ rest)).result = .ok args ∧
      (parseRESP fields (encodeRequest args ++ rest)).rest = rest := by
  obtain ⟨-, hmax, hfits⟩ := h
  obtain ⟨hle, hne, hclamp⟩ := @ofNat_facts args.length (by omega)
  have hlimit : Int64.ofNat args.length ≤ maxArrayLength := by
    rw [Int64.le_iff_toInt_le, Int64.toInt_ofNat_of_lt (by omega)]
    show (args.length : Int) ≤ 65536
    omega
  rw [parseRESP, encodeRequest, List.append_assoc, readLine_lengthLine (by decide) (by omega)]
  simp only [List.head?_cons, List.tail_cons, parseInt_formatInt, ne_eq, not_true_eq_false, if_false, Option.filter_some,
    hle, hlimit, and_self, decide_true, if_true, hne, hclamp, reduceCtorEq]
  exact readBulks_encode hfits rest

/-- The length that the first line gives behind the mark, however large. -/
def announced (mark : UInt8) (bs : Bytes) : Option Nat :=
  (readLine bs).bind fun r =>
    if r.1.head? = some mark ∧ (splitSign r.1.tail).1 = false then parseDigits 0 (splitSign r.1.tail).2 else none

theorem above_of_parseInt {mark : UInt8} {bs : Bytes} {n : Nat} {limit : Int64} (h : announced mark bs = some n)
    (hlimit : limit.toInt < n) : ∃ line rest, readLine bs = some (line, rest) ∧ line.head? = some mark ∧
      ∀ v, parseInt line.tail = some v → limit < v := by
  obtain ⟨⟨line, rest⟩, hline, hn⟩ := Option.bind_eq_some_iff.mp h
  split at hn
  · rename_i hmark
    refine ⟨line, rest, hline, hmark.1, fun v hv => ?_⟩
    rw [parseInt] at hv
    dsimp only at hv
    split at hv
    · cases hv
    rw [hn, hmark.2, Option.bind_some, if_neg Bool.false_ne_true] at hv
    split at hv
    · cases hv
      rw [Int64.lt_iff_toInt_lt, Int64.toInt_ofInt_of_le (by omega) (by omega)]
      exact hlimit
    · cases hv
  · cases hn

theorem readBulk_above {bs : Bytes} {n : Nat} (h : announced 36 bs = some n) (hlimit : maxPayloadSize.toInt < n) :
    (∃ e, (readBulk bs).result = .error e) ∧ (readBulk bs).buffers = [] := by
  obtain ⟨line, rest, hline, hhead, habove⟩ := above_of_parseInt h hlimit
  rw [readBulk, hline]
  dsimp only
  rw [if_neg (not_not.mpr hhead)]
  split
  · exact ⟨⟨_, rfl⟩, rfl⟩
  · rename_i strLen hlen
    have hlt := habove strLen (Option.filter_eq_some_iff.mp hlen).1
    have hne : strLen ≠ -1 := by
      rintro rfl
      exact absurd hlt (by decide)
    rw [if_neg hne, if_pos hlt]
    exact ⟨⟨_, rfl⟩, rfl⟩

theorem readBulk_buffers (bs : Bytes) : ∀ b ∈ (readBulk bs).buffers, b ≤ 67108866 := by
  intro b hb
  unfold readBulk at hb
  split at hb
  · cases hb
  split at hb
  · cases hb
  split at hb
  · cases hb
  rename_i strLen _
  split at hb
  · cases hb
  split at hb
  · cases hb
  rename_i hmax
  have hle : strLen.toNatClampNeg ≤ 67108864 := by
    rw [Int64.lt_iff_toInt_lt, not_lt] at hmax
    exact Int.toNat_le.mpr hmax
  have hbuf : b = strLen.toNatClampNeg + 2 := by
    dsimp only at hb
    split at hb
    · exact List.mem_singleton.mp hb
    · split at hb <;> exact List.mem_singleton.mp hb
  omega

theorem readBulks_buffers (n : Nat) (bs : Bytes) : ∀ b ∈ (readBulks n bs).buffers, b ≤ 67108866 := by
  induction n generalizing bs with
  | zero => exact fun b hb => nomatch hb
  | succ n ih =>
    intro b hb
    rw [readBulks] at hb
    dsimp only at hb
    split at hb
    · exact readBulk_buffers bs b hb
    · rcases List.mem_append.mp hb with hb | hb
      · exact readBulk_buffers bs b hb
      · exact ih _ b hb

theorem parseRESP_above {bs : Bytes} {n : Nat} (h : announced 42 bs = some n) (hlimit : maxArrayLength.toInt < n) :
    (∃ e, (parseRESP fields bs).result = .error e) ∧ (parseRESP fields bs).buffers = [] := by
  obtain ⟨line, rest, hline, hhead, habove⟩ := above_of_parseInt h hlimit
  have hne : line ≠ [] := by
    rintro rfl
    cases hhead
  rw [parseRESP, hline]
  dsimp only
  rw [if_neg hne, if_neg (not_not.mpr hhead)]
  split
  · exact ⟨⟨_, rfl⟩, rfl⟩
  · rename_i count hcount
    obtain ⟨hparse, hin⟩ := Option.filter_eq_some_iff.mp hcount
    exact absurd (of_decide_eq_true hin).2 (Int64.not_le.mpr (habove count hparse))

theorem parseRESP_buffers (bs : Bytes) : ∀ b ∈ (parseRESP fields bs).buffers, b ≤ 67108866 := by
  intro b hb
  unfold parseRESP at hb
  split at hb
  · cases hb
  split at hb
  · cases hb
  split at hb
  · cases hb
  split at hb
  · cases hb
  rename_i count hcount
  split at hb
  · cases hb
  have hin := of_decide_eq_true (Option.filter_eq_some_iff.mp hcount).2
  rcases List.mem_cons.mp hb with rfl | hb
  · have hle : count.toNatClampNeg ≤ 65536 := Int.toNat_le.mpr (Int64.le_iff_toInt_le.mp hin.2)
    omega
  · exact readBulks_buffers _ _ b hb

/-- **Requests are read exactly**, and lengths above the limits are refused before a buffer is made. -/
theorem parseRESP_exact (fields : Bytes → List Bytes) :
    (∀ requests : List (List Bytes), (∀ args ∈ requests, Request args) → ∀ more,
      parseMany fields requests.length (requests.flatMap encodeRequest ++ more) = (requests.map .ok, more)) ∧
    ∀ bs,
      (∀ n, announced 42 bs = some n → maxArrayLength.toInt < n →
        (∃ e, (parseRESP fields bs).result = .error e) ∧ (parseRESP fields bs).buffers = []) ∧
      (∀ n, announced 36 bs = some n → maxPayloadSize.toInt < n →
        (∃ e, (readBulk bs).result = .error e) ∧ (readBulk bs).buffers = []) ∧
      ∀ b ∈ (parseRESP fields bs).buffers, b ≤ 67108866 := by
  refine ⟨fun requests h more => ?_, fun bs => ⟨fun n => parseRESP_above, fun n => readBulk_above, parseRESP_buffers bs⟩⟩
  induction requests with
  | nil => rfl
  | cons args requests ih =>
    obtain ⟨hresult, hrest⟩ := @parseRESP_encode fields args (h args List.mem_cons_self)
      (requests.flatMap encodeRequest ++ more)
    rw [List.flatMap_cons, List.append_assoc, List.length_cons, parseMany]
    rw [hresult, hrest, ih fun a ha => h a (List.mem_cons_of_mem _ ha)]
    rfl

end Resp
end AkwaDB
