import AkwaDB.Manifest.Record

/-!
# AkwaDB.Manifest.Reread

What `readManifest` leaves of the MANIFEST for the next open.

The loop sees the longest prefix of whole, intact records (`records_longest`), and the map it
returns is right. The cut is not: the loop keeps the size of the last record where it needs the
sum of the sizes, so the file keeps one record's worth of bytes. `readManifest_exact_iff` says
exactly when the file is left as it should be.
-/

namespace AkwaDB
namespace Manifest

/-- `p` is the longest prefix of `file` that is a sequence of whole records, with data `datas`. -/
def LongestValidPrefix (file p : Bytes) (datas : List Bytes) : Prop :=
  (p <+: file ∧ reader.Parses 0 p datas) ∧
    ∀ p' datas', p' <+: file → reader.Parses 0 p' datas' → p'.length ≤ p.length

/-- The map is that of the longest valid prefix, to which the file is cut. -/
def ReadExact (file : Bytes) : Prop :=
  ∃ p datas, LongestValidPrefix file p datas ∧ (readManifest file).1 = replay datas ∧
    (readManifest file).2 = p ∧
    (readManifest (readManifest file).2).1 = (readManifest file).1

theorem records_longest (file : Bytes) :
    LongestValidPrefix file (file.take (reader.consumed 0 file)) (reader.records 0 file) := by
  refine ⟨⟨List.take_prefix _ _, reader.parses_scan 0 file⟩, ?_⟩
  intro p' datas' hp hd
  rw [List.length_take, Nat.min_eq_left (reader.consumed_le 0 file)]
  exact (reader.scan_longest hd hp).2

theorem LongestValidPrefix.length_eq {file p : Bytes} {datas : List Bytes}
    (h : LongestValidPrefix file p datas) : p.length = reader.consumed 0 file := by
  obtain ⟨⟨hp, hd⟩, hmax⟩ := h
  have h1 := (reader.scan_longest hd hp).2
  have h2 := hmax _ _ (List.take_prefix _ _) (reader.parses_scan 0 file)
  rw [List.length_take, Nat.min_eq_left (reader.consumed_le 0 file)] at h2
  omega

theorem lastValidOffset_concat (fs : List (Bytes × Nat)) (f : Bytes × Nat) :
    lastValidOffset (fs ++ [f]) = f.2 := by
  simp [lastValidOffset]

theorem lastValidOffset_lt {fs : List (Bytes × Nat)} (hpos : ∀ f ∈ fs, 0 < f.2)
    (h2 : 2 ≤ fs.length) :
    0 < lastValidOffset fs ∧ lastValidOffset fs < (fs.map Prod.snd).sum := by
  rcases List.eq_nil_or_concat fs with rfl | ⟨front, last, rfl⟩
  · simp at h2
  · rw [List.concat_eq_append] at hpos h2 ⊢
    rw [lastValidOffset_concat]
    refine ⟨hpos last (by simp), ?_⟩
    cases front with
    | nil => simp at h2
    | cons f front =>
      have := hpos f (by simp)
      simp only [List.map_append, List.map_cons, List.map_nil, List.sum_append, List.sum_cons,
        List.sum_nil]
      omega

def SingleRecord (file : Bytes) : Prop :=
  ∃ data tail, file = frame data ++ tail ∧ data.length ≤ maxDataLen ∧ readFrame tail = none

theorem scan_length_eq_one_iff (file : Bytes) :
    (reader.scan 0 file).length = 1 ↔ SingleRecord file := by
  constructor
  · intro h
    cases hn : reader.next 0 file with
    | none => rw [reader.scan_none hn] at h; simp at h
    | some r =>
      obtain ⟨data, n⟩ := r
      obtain ⟨hmax, rfl, tail, rfl⟩ := readFrame_eq_some.mp hn
      refine ⟨data, tail, rfl, hmax, ?_⟩
      rw [reader.scan_some hn, List.drop_left' (by simp)] at h
      cases ht : reader.next (0 + (8 + data.length)) tail with
      | none => exact ht
      | some r => rw [reader.scan_some ht] at h; simp at h
  · rintro ⟨data, tail, rfl, hmax, ht⟩
    have hn : reader.next 0 (frame data ++ tail) = some (data, 8 + data.length) :=
      readFrame_eq_some.mpr ⟨hmax, rfl, List.prefix_append _ _⟩
    have htail : reader.next (0 + (8 + data.length)) tail = none := ht
    rw [reader.scan_some hn, List.drop_left' (by simp), reader.scan_none htail]
    rfl

theorem readExact_of_scan_singleton {file : Bytes} {f : Bytes × Nat}
    (hs : reader.scan 0 file = [f]) : ReadExact file := by
  have hf : 0 < f.2 := reader.size_pos (by rw [hs]; exact List.mem_singleton_self f)
  have hcons : reader.consumed 0 file = f.2 := by simp [Reader.consumed, hs]
  have hcut : (readManifest file).2 = file.take (reader.consumed 0 file) := by
    rw [readManifest_file, hs, hcons]
    simp [lastValidOffset, hf]
  refine ⟨_, _, records_longest file, readManifest_levels file, hcut, ?_⟩
  rw [hcut, readManifest_levels, readManifest_levels, Reader.records, reader.scan_take_consumed]
  rfl

theorem ReadExact.scan_length {file : Bytes} (h : ReadExact file) :
    file = [] ∨ (reader.scan 0 file).length = 1 := by
  obtain ⟨p, datas, hp, _, hfile, _⟩ := h
  have hpl := hp.length_eq
  rcases hs : reader.scan 0 file with _ | ⟨f, _ | ⟨g, fs⟩⟩
  · -- no record at all: the file is kept whole, so the valid prefix must be the file
    left
    have hkeep : (readManifest file).2 = file := by simp [readManifest_file, hs, lastValidOffset]
    rw [← hfile, hkeep, Reader.consumed, hs] at hpl
    exact List.length_eq_zero_iff.mp hpl
  · right; rfl
  · -- two records or more: the cut is shorter than the valid prefix
    have hcut := lastValidOffset_lt (fun x hx => reader.size_pos hx) (by rw [hs]; simp)
    have hlen : (readManifest file).2.length ≤ lastValidOffset (reader.scan 0 file) := by
      rw [readManifest_file, if_pos hcut.1]
      exact List.length_take_le _ _
    have hsum : ((reader.scan 0 file).map Prod.snd).sum = p.length := hpl.symm
    rw [hfile] at hlen
    omega

/-- **When `readManifest` is exact**: the file is empty, or its longest valid prefix is one record. -/
theorem readManifest_exact_iff (file : Bytes) :
    ReadExact file ↔ file = [] ∨ SingleRecord file := by
  rw [← scan_length_eq_one_iff]
  constructor
  · exact ReadExact.scan_length
  · rintro (rfl | h)
    · refine ⟨[], [], ?_, rfl, rfl, rfl⟩
      simpa using records_longest []
    · obtain ⟨f, hs⟩ := List.length_eq_one_iff.mp h
      exact readExact_of_scan_singleton hs

def twoTables : Bytes :=
  appendManifest (appendManifest [] actionAdd 0 1 [97] [98]) actionAdd 0 2 [97] [98]

/-- The first open cuts the file to one record, and the next has forgotten table 2. -/
theorem twoTables_not_exact :
    ¬ ReadExact twoTables ∧ (readManifest twoTables).1 2 = some 0 ∧
      (readManifest (readManifest twoTables).2).1 2 = none := by
  refine ⟨?_, by decide +kernel, by decide +kernel⟩
  intro h
  rcases h.scan_length with h | h
  · exact absurd h (by decide +kernel)
  · exact absurd h (by decide +kernel)

end Manifest
end AkwaDB
