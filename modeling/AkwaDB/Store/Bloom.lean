import AkwaDB.Lib.Bytes
import AkwaDB.Store.Table

/-!
# AkwaDB.Store.Bloom

The bloom filter as bytes, in memory and in the file of a table.

The hash is any function. Sizes and probes are computed with 32 bits and may wrap; what matters is that the number of
bits is eight times the number of bytes (`Filter.Wf`), also where both are zero, and that a filter that is read back has
the bytes it was written with or says so of every key.

`no_false_negatives`: a filter admits every key that was added, when it has been built and when it has been read back
from a table, and no probe is outside the bits. `newFilter_refines`: the filter of `AkwaDB.Table`, a list of the bits
that are set, gives the same answers.
-/

namespace AkwaDB
namespace Bloom

structure Filter where
  data : Bytes
  bits : UInt32
  k : UInt8

/-! ## Building and asking -/

variable (xxhash : Bytes → UInt64)

def probe (bits : UInt32) (key : Bytes) (i : Nat) : UInt32 :=
  let h := xxhash key
  let h1 := h.toUInt32
  let h2 := (h >>> 32).toUInt32 ||| 1
  (h1 + UInt32.ofNat i * h2) % bits

def mask (idx : UInt32) : UInt8 := 1 <<< UInt8.ofNat (idx &&& 7).toNat

def setBit (data : Bytes) (idx : UInt32) : Option Bytes :=
  data[(idx >>> 3).toNat]?.map fun b => data.set (idx >>> 3).toNat (b ||| mask idx)

def Filter.add (f : Filter) (key : Bytes) : Option Filter :=
  if f.bits = 0 ∨ f.data.length = 0 then some f
  else
    ((List.range f.k.toNat).foldlM (fun data i => setBit data (probe xxhash f.bits key i)) f.data).map fun data =>
      { f with data }

def testAll (data : Bytes) : List UInt32 → Option Bool
  | [] => some true
  | idx :: rest => data[(idx >>> 3).toNat]?.bind fun b => if b &&& mask idx = 0 then some false else testAll data rest

def Filter.mayContain (f : Filter) (key : Bytes) : Option Bool :=
  if f.data.length = 0 ∨ f.bits = 0 then some true
  else testAll f.data ((List.range f.k.toNat).map (probe xxhash f.bits key))

/-- `ln2` is `uint8(float64(bitsPerKey) * math.Ln2)`, whatever that gives for a number that does not fit. -/
def newFilterSized (ln2 : Int64 → UInt8) (n : Nat) (bitsPerKey : Int64) : Filter :=
  let bitsPerKey := if bitsPerKey < 1 then 10 else bitsPerKey
  let n := if n = 0 then 1 else n
  let rawBits := (Int64.ofNat n * bitsPerKey).toUInt64.toUInt32
  let rawBits := if rawBits < 64 then 64 else rawBits
  let byteLen := (rawBits + 7) / 8
  let k := ln2 bitsPerKey
  ⟨List.replicate byteLen.toNat 0, byteLen * 8, if k < 1 then 1 else if 30 < k then 30 else k⟩

def newFilter (ln2 : Int64 → UInt8) (keys : List Bytes) (bitsPerKey : Int64) : Option Filter :=
  keys.foldlM (Filter.add xxhash) (newFilterSized ln2 keys.length bitsPerKey)

/-! ## In a table -/

/-- `k`, the number of bits and the bytes, as `createAtLevel` writes them. -/
def Filter.section (f : Filter) : Bytes := f.k :: (bePut 4 f.bits.toNat ++ f.data)

/-- What stands around the two filters of a table. -/
structure Rest where
  front : Bytes
  indexStart : Nat
  minMax : Bytes
  compress : UInt8
  /-- The key of the table, the flag that it is encrypted, and the ratio of tombstones. -/
  tail : Vector UInt8 7

def tableFile (r : Rest) (f p : Filter) : Bytes :=
  r.front ++ (f.section ++ (p.section ++ (r.minMax ++ (bePut 8 r.indexStart ++ (bePut 8 r.front.length ++
    (r.compress :: (bePut 8 (r.front.length + f.section.length + p.section.length) ++ r.tail.toList)))))))

def readAt (file : Bytes) (off len : Int) : Option Bytes :=
  if 0 ≤ off ∧ off + len ≤ file.length then some ((file.drop off.toNat).take len.toNat) else none

def int64At (bs : Bytes) (off : Nat) : Int := (UInt64.ofNat (beGet ((bs.drop off).take 8))).toInt64.toInt

structure Fields where
  off : Int
  len : Int
  bits : UInt32
  k : UInt8

def readHeader (file : Bytes) (off : Int) : Option (UInt8 × UInt32) := do
  let kByte ← readAt file off 1
  let bitsBuf ← readAt file (off + 1) 4
  return (kByte.headD 0, UInt32.ofNat (beGet bitsBuf))

def byteCount (bits : UInt32) : Int := ((bits + 7) / 8).toNat

def openFilter (file : Bytes) (bloomStart minKey : Int) : Fields :=
  if bloomStart + 5 ≤ file.length then
    match readHeader file bloomStart with
    | some (k, bits) =>
      let l := minKey - (bloomStart + 5)
      if 0 < l then
        ⟨bloomStart + 5, if byteCount bits ≤ 0 ∨ l < byteCount bits then l else byteCount bits, bits, k⟩
      else ⟨0, 0, bits, k⟩
    | none => ⟨0, 0, 0, 0⟩
  else ⟨0, 0, 0, 0⟩

/-- The filter of the prefixes, behind the first. -/
def openPrefixes (file : Bytes) (filter : Fields) (minKey : Int) : Fields :=
  let pOff := filter.off + filter.len
  if 0 < filter.len ∧ pOff + 5 ≤ minKey then
    match readHeader file pOff with
    | some (k, bits) =>
      if 0 < byteCount bits ∧ pOff + 5 + byteCount bits ≤ minKey then ⟨pOff + 5, byteCount bits, bits, k⟩
      else ⟨0, 0, 0, 0⟩
    | none => ⟨0, 0, 0, 0⟩
  else ⟨0, 0, 0, 0⟩

def openFilters (file : Bytes) : Fields × Fields :=
  let footer := file.drop (file.length - 32)
  let filter := openFilter file (int64At footer 8) (int64At footer 17)
  (filter, openPrefixes file filter (int64At footer 17))

/-- `getFilter` and `getPrefixFilter`; no filter admits every key. -/
def Fields.mayContain (file : Bytes) (s : Fields) (key : Bytes) : Option Bool :=
  if s.len ≤ 0 then some true
  else
    match readAt file s.off s.len with
    | none => some true
    | some raw => Filter.mayContain xxhash ⟨raw, s.bits, s.k⟩ key

variable {xxhash}

theorem mask_eq (idx : UInt32) : mask idx = 1 <<< UInt8.ofNat (idx.toNat % 8) := by
  have hmod : (idx &&& 7).toNat = idx.toNat % 8 := Nat.and_two_pow_sub_one_eq_mod idx.toNat 3
  rw [mask, hmod]

theorem mask_and_ne_zero {i j : UInt32} : mask i &&& mask j ≠ 0 ↔ i.toNat % 8 = j.toNat % 8 := by
  have hbits : ∀ n < 8, ∀ m < 8, ((1 : UInt8) <<< UInt8.ofNat n) &&& (1 <<< UInt8.ofNat m) ≠ 0 ↔ n = m := by decide
  rw [mask_eq, mask_eq]
  exact hbits _ (Nat.mod_lt _ (by decide)) _ (Nat.mod_lt _ (by decide))

theorem shift_toNat (i : UInt32) : (i >>> 3).toNat = i.toNat / 8 := Nat.shiftRight_eq_div_pow _ 3

def IsSet (data : Bytes) (idx : UInt32) : Prop := ∃ b, data[(idx >>> 3).toNat]? = some b ∧ b &&& mask idx ≠ 0

theorem or_and_ne_zero {b c m : UInt8} : (b ||| c) &&& m ≠ 0 ↔ b &&& m ≠ 0 ∨ c &&& m ≠ 0 := by
  have hdistrib : (b ||| c) &&& m = (b &&& m) ||| (c &&& m) := by
    rw [← UInt8.toBitVec_inj]
    exact BitVec.and_or_distrib_right
  rw [hdistrib, ne_eq, UInt8.or_eq_zero_iff]
  tauto

theorem setBit_spec {data : Bytes} {idx : UInt32} (h : (idx >>> 3).toNat < data.length) :
    ∃ data', setBit data idx = some data' ∧ data'.length = data.length ∧
      ∀ i, IsSet data' i ↔ i = idx ∨ IsSet data i := by
  obtain ⟨b, hb⟩ : ∃ b, data[(idx >>> 3).toNat]? = some b := ⟨_, List.getElem?_eq_getElem h⟩
  refine ⟨_, by rw [setBit, hb]; rfl, List.length_set, fun i => ?_⟩
  by_cases hi : (idx >>> 3).toNat = (i >>> 3).toNat
  · have hsame : mask idx &&& mask i ≠ 0 ↔ i = idx := by
      rw [mask_and_ne_zero, ← UInt32.toNat_inj]
      rw [shift_toNat, shift_toNat] at hi
      omega
    simp only [IsSet, ← hi, List.getElem?_set_self h, hb, Option.some.injEq, exists_eq_left', or_and_ne_zero, hsame]
    exact or_comm
  · have hne : i ≠ idx := fun heq => hi (by rw [heq])
    simp only [IsSet, List.getElem?_set_ne hi, hne, false_or]

/-- The bits are those of the bytes. -/
def Filter.Wf (f : Filter) : Prop := f.bits.toNat = 8 * f.data.length

theorem probe_lt {f : Filter} (h : f.Wf) (hbits : f.bits ≠ 0) (key : Bytes) (i : Nat) :
    (probe xxhash f.bits key i >>> 3).toNat < f.data.length := by
  have hpos : 0 < f.bits.toNat := Nat.pos_of_ne_zero fun hz => hbits (UInt32.toNat_inj.mp hz)
  have hlt : (probe xxhash f.bits key i).toNat < f.bits.toNat := by
    rw [probe, UInt32.toNat_mod]
    exact Nat.mod_lt _ hpos
  rw [Filter.Wf] at h
  rw [shift_toNat]
  omega

def Filter.Holds (xxhash : Bytes → UInt64) (f : Filter) (key : Bytes) : Prop :=
  f.bits ≠ 0 → ∀ i < f.k.toNat, IsSet f.data (probe xxhash f.bits key i)

theorem setBits_spec (idxs : Nat → UInt32) (ns : List Nat) {data : Bytes}
    (h : ∀ i ∈ ns, (idxs i >>> 3).toNat < data.length) :
    ∃ data', ns.foldlM (fun data i => setBit data (idxs i)) data = some data' ∧ data'.length = data.length ∧
      ∀ i, IsSet data' i ↔ (∃ n ∈ ns, i = idxs n) ∨ IsSet data i := by
  induction ns generalizing data with
  | nil => exact ⟨data, rfl, rfl, by simp⟩
  | cons n ns ih =>
    obtain ⟨mid, hmid, hlen, hset⟩ := setBit_spec (h n (by simp))
    obtain ⟨data', hrun, hlen', hset'⟩ := ih (fun i hi => hlen ▸ h i (by simp [hi]))
    refine ⟨data', ?_, hlen'.trans hlen, fun i => ?_⟩
    · rw [List.foldlM_cons, hmid]
      exact hrun
    · rw [hset', hset]
      simp only [List.exists_mem_cons_iff]
      exact or_left_comm.trans or_assoc.symm

theorem add_spec {f : Filter} (h : f.Wf) (key : Bytes) :
    ∃ data, f.add xxhash key = some { f with data } ∧ data.length = f.data.length ∧
      (f.bits ≠ 0 → ∀ i, IsSet data i ↔ (∃ n < f.k.toNat, i = probe xxhash f.bits key n) ∨ IsSet f.data i) := by
  unfold Filter.add
  split
  · rename_i hempty
    have hzero : f.bits = 0 := by
      rcases hempty with hz | hz
      · exact hz
      · rw [Filter.Wf, hz] at h
        exact UInt32.toNat_inj.mp h
    exact ⟨f.data, rfl, rfl, fun hne => absurd hzero hne⟩
  · rename_i hsome
    have hbits : f.bits ≠ 0 := fun hz => hsome (Or.inl hz)
    obtain ⟨data, hrun, hlen, hset⟩ := setBits_spec (probe xxhash f.bits key) (List.range f.k.toNat)
      (fun i _ => probe_lt h hbits key i)
    rw [hrun]
    refine ⟨data, rfl, hlen, fun _ i => ?_⟩
    simp only [hset i, List.mem_range]

theorem newFilterSized_wf (ln2 : Int64 → UInt8) (n : Nat) (bitsPerKey : Int64) :
    (newFilterSized ln2 n bitsPerKey).Wf := by
  have hbytes : ∀ m : UInt32, (m / 8 * 8).toNat = 8 * (List.replicate (m / 8).toNat (0 : UInt8)).length := by
    intro m
    have hlt := m.toNat_lt
    rw [List.length_replicate, UInt32.toNat_mul, UInt32.toNat_div]
    show m.toNat / 8 * 8 % 2 ^ 32 = 8 * (m.toNat / 8)
    omega
  exact hbytes _

theorem addAll_spec (keys : List Bytes) {f : Filter} (h : f.Wf) :
    ∃ data, keys.foldlM (Filter.add xxhash) f = some { f with data } ∧ data.length = f.data.length ∧
      (f.bits ≠ 0 → ∀ i, IsSet data i ↔
        (∃ key ∈ keys, ∃ n < f.k.toNat, i = probe xxhash f.bits key n) ∨ IsSet f.data i) := by
  induction keys generalizing f with
  | nil => exact ⟨f.data, rfl, rfl, by simp⟩
  | cons key keys ih =>
    obtain ⟨mid, hmid, hlen, hset⟩ := @add_spec xxhash f h key
    obtain ⟨data, hrun, hlen', hset'⟩ := ih (f := { f with data := mid }) (by rw [Filter.Wf, hlen]; exact h)
    refine ⟨data, by rw [List.foldlM_cons, hmid]; exact hrun, hlen'.trans hlen, fun hne i => ?_⟩
    rw [hset' hne, hset hne]
    simp only [List.exists_mem_cons_iff]
    exact or_left_comm.trans or_assoc.symm

theorem newFilter_spec (ln2 : Int64 → UInt8) (keys : List Bytes) (bitsPerKey : Int64) :
    ∃ f, newFilter xxhash ln2 keys bitsPerKey = some f ∧ f.Wf ∧ ∀ key ∈ keys, f.Holds xxhash key := by
  have hwf := newFilterSized_wf ln2 keys.length bitsPerKey
  obtain ⟨data, hrun, hlen, hset⟩ := @addAll_spec xxhash keys _ hwf
  exact ⟨_, hrun, by rw [Filter.Wf, hlen]; exact hwf, fun key hk hne n hn =>
    (hset hne _).mpr (Or.inl ⟨key, hk, n, hn, rfl⟩)⟩

theorem testAll_spec {data : Bytes} {idxs : List UInt32} (h : ∀ i ∈ idxs, (i >>> 3).toNat < data.length) :
    ∃ r, testAll data idxs = some r ∧ (r = true ↔ ∀ i ∈ idxs, IsSet data i) := by
  induction idxs with
  | nil => exact ⟨true, rfl, by simp⟩
  | cons i idxs ih =>
    obtain ⟨r, hr, hall⟩ := ih (fun j hj => h j (by simp [hj]))
    obtain ⟨b, hb⟩ : ∃ b, data[(i >>> 3).toNat]? = some b := ⟨_, List.getElem?_eq_getElem (h i (by simp))⟩
    have hset : IsSet data i ↔ b &&& mask i ≠ 0 := by
      rw [IsSet, hb]
      simp
    rw [testAll, hb, Option.bind_some]
    split
    · exact ⟨false, rfl, by simp [*]⟩
    · exact ⟨r, hr, by simp [*]⟩

theorem mayContain_spec {f : Filter} (h : f.Wf) (key : Bytes) :
    ∃ r, f.mayContain xxhash key = some r ∧ (r = true ↔ f.Holds xxhash key) := by
  unfold Filter.mayContain
  split
  · rename_i hempty
    have hzero : f.bits = 0 := by
      rcases hempty with hz | hz
      · rw [Filter.Wf, hz] at h
        exact UInt32.toNat_inj.mp h
      · exact hz
    exact ⟨true, rfl, iff_of_true rfl fun hne => absurd hzero hne⟩
  · rename_i hsome
    have hbits : f.bits ≠ 0 := fun hz => hsome (Or.inr hz)
    obtain ⟨r, hr, hall⟩ := @testAll_spec f.data ((List.range f.k.toNat).map (probe xxhash f.bits key)) (by
      intro i hi
      obtain ⟨n, -, rfl⟩ := List.mem_map.mp hi
      exact probe_lt h hbits key n)
    exact ⟨r, hr, hall.trans (by simp [Filter.Holds, hbits])⟩

/-! ## The filter of a table -/

theorem probe_toNat (f : AkwaDB.Filter) {bits : UInt32} (h : bits.toNat = f.bits) (key : Bytes) :
    f.probes xxhash key = (List.range 6).map fun n => (probe xxhash bits key n).toNat := by
  refine List.map_congr_left fun n _ => ?_
  have hhigh : ((xxhash key >>> 32).toUInt32 ||| 1).toNat = (xxhash key).toNat / 2 ^ 32 ||| 1 := by
    have hlt : (xxhash key).toNat / 2 ^ 32 < 2 ^ 32 := by
      have := (xxhash key).toNat_lt
      omega
    show (xxhash key >>> 32).toUInt32.toNat ||| 1 = _
    rw [UInt64.toNat_toUInt32, show (xxhash key >>> 32).toNat = (xxhash key).toNat / 2 ^ 32 from
      Nat.shiftRight_eq_div_pow _ 32, Nat.mod_eq_of_lt hlt]
  rw [probe, UInt32.toNat_mod, UInt32.toNat_add, UInt32.toNat_mul, hhigh, UInt64.toNat_toUInt32, UInt32.toNat_ofNat', h]
  simp [Nat.add_mod, Nat.mul_mod]

theorem newFilterSized_refines (ln2 : Int64 → UInt8) (n : Nat) :
    (newFilterSized ln2 n 10).bits.toNat = (AkwaDB.Filter.newFilterSized n).bits := by
  have hraw : ∀ m : Nat, (Int64.ofNat m * 10).toUInt64.toUInt32.toNat = m * 10 % 2 ^ 32 := by
    intro m
    have hmul : (Int64.ofNat m * 10).toUInt64 = UInt64.ofNat m * 10 := rfl
    rw [hmul, UInt64.toNat_toUInt32, UInt64.toNat_mul, UInt64.toNat_ofNat']
    show m % 2 ^ 64 * 10 % 2 ^ 64 % 2 ^ 32 = _
    omega
  have hbytes : ∀ raw : UInt32, ((raw + 7) / 8 * 8).toNat = (raw.toNat + 7) % 2 ^ 32 / 8 * 8 := by
    intro raw
    rw [UInt32.toNat_mul, UInt32.toNat_div, UInt32.toNat_add]
    show (raw.toNat + 7) % 2 ^ 32 / 8 * 8 % 2 ^ 32 = _
    omega
  simp only [newFilterSized, AkwaDB.Filter.newFilterSized, if_neg (by decide : ¬(10 : Int64) < 1), hbytes]
  generalize (if n = 0 then 1 else n) = m
  have hlt : (Int64.ofNat m * 10).toUInt64.toUInt32 < 64 ↔ m * 10 % 2 ^ 32 < 64 := by
    rw [UInt32.lt_iff_toNat_lt, hraw]
    rfl
  by_cases hsmall : m * 10 % 2 ^ 32 < 64
  · rw [if_pos (hlt.mpr hsmall), if_pos hsmall]
    rfl
  · rw [if_neg fun h => hsmall (hlt.mp h), if_neg hsmall, hraw]

theorem addAll_bits (keys : List Bytes) (f : AkwaDB.Filter) :
    (keys.foldl (AkwaDB.Filter.add xxhash) f).bits = f.bits := by
  induction keys generalizing f with
  | nil => rfl
  | cons key keys ih => rw [List.foldl_cons, ih, AkwaDB.Filter.add_bits]

theorem mem_addAll (keys : List Bytes) {f : AkwaDB.Filter} (h : f.bits ≠ 0) (i : Nat) :
    i ∈ (keys.foldl (AkwaDB.Filter.add xxhash) f).data ↔ (∃ key ∈ keys, i ∈ f.probes xxhash key) ∨ i ∈ f.data := by
  induction keys generalizing f with
  | nil => simp
  | cons key keys ih =>
    have hadd : f.add xxhash key = ⟨f.bits, f.data ++ f.probes xxhash key⟩ := if_neg h
    have hmem := @ih ⟨f.bits, f.data ++ f.probes xxhash key⟩ h
    rw [List.foldl_cons, hadd, hmem, List.mem_append, List.exists_mem_cons_iff, or_comm (a := i ∈ f.data),
      or_left_comm, or_assoc]
    rfl

theorem not_isSet_replicate (n : Nat) (i : UInt32) : ¬IsSet (List.replicate n 0) i := by
  rintro ⟨b, hb, hset⟩
  obtain rfl : b = 0 := List.eq_of_mem_replicate (List.mem_of_getElem? hb)
  exact hset UInt8.zero_and

/-- **As a list of bits**: the filter that the tables of the model have answers as the bytes do. -/
theorem newFilter_refines (ln2 : Int64 → UInt8) (hln2 : ln2 10 = 6) (keys : List Bytes) :
    ∃ f, newFilter xxhash ln2 keys 10 = some f ∧
      ∀ key, f.mayContain xxhash key = some ((AkwaDB.Filter.newFilter xxhash keys).mayContain xxhash key) := by
  have hwf := newFilterSized_wf ln2 keys.length 10
  have hbits := newFilterSized_refines ln2 keys.length
  have hk : (newFilterSized ln2 keys.length 10).k.toNat = 6 := by simp [newFilterSized, hln2]
  obtain ⟨data, hrun, hlen, hset⟩ := @addAll_spec xxhash keys _ hwf
  refine ⟨_, hrun, fun key => ?_⟩
  obtain ⟨r, hr, hholds⟩ := @mayContain_spec xxhash { newFilterSized ln2 keys.length 10 with data }
    (hwf.trans (congrArg (8 * ·) hlen.symm)) key
  rw [hr, Option.some.injEq, Bool.eq_iff_iff, hholds, AkwaDB.Filter.mayContain, Bool.or_eq_true, decide_eq_true_eq,
    List.all_eq_true, AkwaDB.Filter.newFilter, addAll_bits, ← hbits]
  by_cases hzero : (newFilterSized ln2 keys.length 10).bits = 0
  · exact iff_of_true (fun hne => absurd hzero hne) (Or.inl (by rw [hzero]; rfl))
  have hne : (newFilterSized ln2 keys.length 10).bits.toNat ≠ 0 := fun h => hzero (UInt32.toNat_inj.mp h)
  -- A probe of the bytes is the same position in the list.
  have hsame : ∀ key n, IsSet data (probe xxhash (newFilterSized ln2 keys.length 10).bits key n) ↔
      (probe xxhash (newFilterSized ln2 keys.length 10).bits key n).toNat ∈
        (keys.foldl (AkwaDB.Filter.add xxhash) (AkwaDB.Filter.newFilterSized keys.length)).data := by
    intro key n
    rw [hset hzero, mem_addAll keys (hbits ▸ hne), hk]
    simp only [probe_toNat _ hbits, List.mem_map, List.mem_range, UInt32.toNat_inj, eq_comm]
    exact or_congr Iff.rfl (iff_of_false (not_isSet_replicate _ _) List.not_mem_nil)
  rw [probe_toNat _ (hbits.trans (addAll_bits keys _).symm)]
  simp only [Filter.Holds, hzero, hne, hk, hsame, List.mem_map, List.mem_range, List.contains_iff_mem, ne_eq,
    not_false_eq_true, forall_const, false_or, forall_exists_index, and_imp, forall_apply_eq_imp_iff₂]

theorem readAt_append (as bs cs : Bytes) : readAt (as ++ (bs ++ cs)) as.length bs.length = some bs := by
  have hin : (0 : Int) ≤ as.length ∧ (as.length : Int) + bs.length ≤ (as ++ (bs ++ cs)).length := by
    rw [List.length_append, List.length_append]
    omega
  rw [readAt, if_pos hin, Int.toNat_natCast, Int.toNat_natCast, List.drop_left, List.take_left]

theorem readHeader_section (as cs : Bytes) (f : Filter) :
    readHeader (as ++ (f.section ++ cs)) as.length = some (f.k, f.bits) := by
  have hk := readAt_append as [f.k] (bePut 4 f.bits.toNat ++ (f.data ++ cs))
  have hbits := readAt_append (as ++ [f.k]) (bePut 4 f.bits.toNat) (f.data ++ cs)
  rw [bePut_length, List.length_append, List.append_assoc] at hbits
  have hsection : as ++ (f.section ++ cs) = as ++ ([f.k] ++ (bePut 4 f.bits.toNat ++ (f.data ++ cs))) := by
    simp [Filter.section]
  rw [hsection, readHeader, show (1 : Int) = [f.k].length from rfl, hk, Option.bind_eq_bind, Option.bind_some,
    ← Int.natCast_add, show (4 : Int) = (4 : Nat) from rfl, hbits, Option.bind_some,
    beGet_bePut_of_lt (by simpa using f.bits.toNat_lt), UInt32.ofNat_toNat]
  rfl

theorem int64At_bePut (as cs : Bytes) {n : Nat} (h : n < 2 ^ 63) : int64At (as ++ (bePut 8 n ++ cs)) as.length = n := by
  rw [int64At, List.drop_left, List.take_left' (bePut_length _ _), beGet_bePut_of_lt (by omega)]
  show (Int64.ofNat n).toInt = n
  exact Int64.toInt_ofNat_of_lt h

theorem section_length (f : Filter) : f.section.length = 5 + f.data.length := by
  simp [Filter.section]
  omega

theorem byteCount_eq {f : Filter} (h : f.Wf) : byteCount f.bits = f.data.length := by
  have hlt := f.bits.toNat_lt
  rw [Filter.Wf] at h
  have hadd : (f.bits + 7).toNat = f.bits.toNat + 7 := by
    rw [UInt32.toNat_add]
    exact Nat.mod_eq_of_lt (by show f.bits.toNat + 7 < 2 ^ 32; omega)
  rw [byteCount, UInt32.toNat_div, hadd]
  show (((f.bits.toNat + 7) / 8 : Nat) : Int) = _
  omega

variable {f p : Filter} {r : Rest}

theorem tableFile_length : (tableFile r f p).length =
    r.front.length + f.section.length + p.section.length + r.minMax.length + 32 := by
  simp only [tableFile, List.length_append, bePut_length, List.length_cons, Vector.length_toList]
  omega

theorem footer_offsets (h : (tableFile r f p).length < 2 ^ 63) :
    let footer := (tableFile r f p).drop ((tableFile r f p).length - 32)
    int64At footer 8 = r.front.length ∧
      int64At footer 17 = ((r.front.length + f.section.length + p.section.length : Nat) : Int) := by
  intro footer
  have hlen := @tableFile_length f p r
  have hfooter : footer = bePut 8 r.indexStart ++ (bePut 8 r.front.length ++ (r.compress ::
      (bePut 8 (r.front.length + f.section.length + p.section.length) ++ r.tail.toList))) := by
    have hsplit : tableFile r f p = (r.front ++ (f.section ++ (p.section ++ r.minMax))) ++ (bePut 8 r.indexStart ++
        (bePut 8 r.front.length ++ (r.compress :: (bePut 8 (r.front.length + f.section.length + p.section.length) ++
          r.tail.toList)))) := by
      simp only [tableFile, List.append_assoc]
    simp only [footer]
    rw [hlen, hsplit]
    refine List.drop_left' ?_
    simp only [List.length_append]
    omega
  rw [hfooter]
  constructor
  · simpa using int64At_bePut (bePut 8 r.indexStart) (r.compress :: (bePut 8 (r.front.length + f.section.length +
      p.section.length) ++ r.tail.toList)) (n := r.front.length) (by omega)
  · simpa using int64At_bePut (bePut 8 r.indexStart ++ (bePut 8 r.front.length ++ [r.compress])) r.tail.toList
      (n := r.front.length + f.section.length + p.section.length) (by omega)

theorem mayContain_read (as cs : Bytes) (f : Filter) (key : Bytes) :
    Fields.mayContain xxhash (as ++ (f.section ++ cs)) ⟨as.length + 5, f.data.length, f.bits, f.k⟩ key =
      f.mayContain xxhash key := by
  unfold Fields.mayContain
  split
  · rename_i hzero
    rw [Filter.mayContain, if_pos (Or.inl (by dsimp only at hzero; omega))]
  · have hread := readAt_append (as ++ (f.k :: bePut 4 f.bits.toNat)) f.data cs
    have hsplit : as ++ (f.k :: bePut 4 f.bits.toNat) ++ (f.data ++ cs) = as ++ (f.section ++ cs) := by
      simp [Filter.section]
    rw [hsplit, List.length_append, List.length_cons, bePut_length, Int.natCast_add] at hread
    dsimp only
    rw [show (5 : Int) = ((4 + 1 : Nat) : Int) from rfl, hread]

theorem mayContain_of_bits_eq_zero {file : Bytes} {s : Fields} (h : s.bits = 0) (key : Bytes) :
    s.mayContain xxhash file key = some true := by
  unfold Fields.mayContain
  split
  · rfl
  split
  · rfl
  · exact if_pos (Or.inr h)

theorem openFilter_eq (hf : f.Wf) (h : (tableFile r f p).length < 2 ^ 63) :
    (openFilters (tableFile r f p)).1 =
      ⟨r.front.length + 5, if f.data.length = 0 then ((5 + p.data.length : Nat) : Int) else f.data.length, f.bits,
        f.k⟩ := by
  obtain ⟨hstart, hmin⟩ := footer_offsets h
  have hlen := @tableFile_length f p r
  have hread : readHeader (tableFile r f p) r.front.length = some (f.k, f.bits) := readHeader_section _ _ f
  rw [section_length, section_length] at hmin hlen
  rw [openFilters]
  dsimp only
  rw [hstart, hmin, openFilter, if_pos (by omega), hread]
  dsimp only
  rw [if_pos (by omega), byteCount_eq hf]
  congr 1
  split <;> split <;> omega

theorem openFilter_mayContain (hf : f.Wf) (h : (tableFile r f p).length < 2 ^ 63) (key : Bytes) :
    (openFilters (tableFile r f p)).1.mayContain xxhash (tableFile r f p) key = f.mayContain xxhash key := by
  rw [openFilter_eq hf h]
  by_cases hempty : f.data.length = 0
  · have hbits : f.bits = 0 := UInt32.toNat_inj.mp (by rw [hf, hempty]; rfl)
    rw [Filter.mayContain, if_pos (Or.inl hempty)]
    exact mayContain_of_bits_eq_zero hbits key
  · rw [if_neg hempty]
    exact mayContain_read _ _ f key

theorem openPrefixes_eq (hf : f.Wf) (hp : p.Wf) (h : (tableFile r f p).length < 2 ^ 63) :
    (openFilters (tableFile r f p)).2.bits = 0 ∨ (openFilters (tableFile r f p)).2 =
      ⟨(r.front ++ f.section).length + 5, p.data.length, p.bits, p.k⟩ := by
  obtain ⟨-, hmin⟩ := footer_offsets h
  have hread : readHeader (tableFile r f p) (r.front ++ f.section).length = some (p.k, p.bits) := by
    rw [tableFile, ← List.append_assoc]
    exact readHeader_section _ _ p
  have hsecond : (openFilters (tableFile r f p)).2 = openPrefixes (tableFile r f p) (openFilters (tableFile r f p)).1
      (int64At ((tableFile r f p).drop ((tableFile r f p).length - 32)) 17) := rfl
  rw [section_length, section_length] at hmin
  rw [List.length_append, section_length] at hread ⊢
  rw [hsecond, openFilter_eq hf h, hmin, openPrefixes]
  dsimp only
  by_cases hempty : f.data.length = 0
  · rw [if_pos hempty, if_neg (by omega)]
    exact Or.inl rfl
  · have hoff : (r.front.length : Int) + 5 + f.data.length = ((r.front.length + (5 + f.data.length) : Nat) : Int) := by
      omega
    rw [if_neg hempty, if_pos (by omega), hoff, hread]
    dsimp only
    rw [byteCount_eq hp]
    split
    · exact Or.inr rfl
    · exact Or.inl rfl

theorem openPrefixes_mayContain (hf : f.Wf) (hp : p.Wf) (h : (tableFile r f p).length < 2 ^ 63) (key : Bytes) :
    (openFilters (tableFile r f p)).2.mayContain xxhash (tableFile r f p) key = some true ∨
      (openFilters (tableFile r f p)).2.mayContain xxhash (tableFile r f p) key = p.mayContain xxhash key := by
  rcases openPrefixes_eq hf hp h with hnone | hfound
  · exact Or.inl (mayContain_of_bits_eq_zero hnone key)
  · refine Or.inr ?_
    rw [hfound, tableFile, ← List.append_assoc]
    exact mayContain_read _ _ p key

/-- **No false negatives**, neither in the filter that was built nor in the one that `open` finds in the table. -/
theorem no_false_negatives (xxhash : Bytes → UInt64) (ln2 : Int64 → UInt8) (keys prefixes : List Bytes)
    (bitsPerKey bitsPerPrefix : Int64) (r : Rest) :
    ∃ f p, newFilter xxhash ln2 keys bitsPerKey = some f ∧ newFilter xxhash ln2 prefixes bitsPerPrefix = some p ∧
      (∀ key, f.mayContain xxhash key ≠ none) ∧ (∀ key ∈ keys, f.mayContain xxhash key = some true) ∧
      ((tableFile r f p).length < 2 ^ 63 →
        (∀ key, (openFilters (tableFile r f p)).1.mayContain xxhash (tableFile r f p) key = f.mayContain xxhash key) ∧
        (∀ key, (openFilters (tableFile r f p)).2.mayContain xxhash (tableFile r f p) key ≠ none) ∧
        ∀ key ∈ prefixes, (openFilters (tableFile r f p)).2.mayContain xxhash (tableFile r f p) key = some true) := by
  obtain ⟨f, hf, hwf, hkeys⟩ := @newFilter_spec xxhash ln2 keys bitsPerKey
  obtain ⟨p, hp, hwp, hprefixes⟩ := @newFilter_spec xxhash ln2 prefixes bitsPerPrefix
  have hadmits : ∀ {g : Filter} {key}, g.Wf → g.Holds xxhash key → g.mayContain xxhash key = some true := by
    intro g key hg hholds
    obtain ⟨b, hb, htrue⟩ := mayContain_spec hg key
    rw [hb, htrue.mpr hholds]
  have hinside : ∀ {g : Filter} {key}, g.Wf → g.mayContain xxhash key ≠ none := by
    intro g key hg hnone
    obtain ⟨b, hb, -⟩ := @mayContain_spec xxhash g hg key
    rw [hb] at hnone
    cases hnone
  refine ⟨f, p, hf, hp, fun key => hinside hwf, fun key hk => hadmits hwf (hkeys key hk), fun h => ?_⟩
  refine ⟨openFilter_mayContain hwf h, fun key => ?_, fun key hk => ?_⟩
  · rcases openPrefixes_mayContain hwf hwp h key with htrue | hsame
    · rw [htrue]
      exact Option.some_ne_none _
    · rw [hsame]
      exact hinside hwp
  · rcases openPrefixes_mayContain hwf hwp h key with htrue | hsame
    · exact htrue
    · rw [hsame, hadmits hwp (hprefixes key hk)]

end Bloom
end AkwaDB
