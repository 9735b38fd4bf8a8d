import AkwaDB.Cluster.Snapshot

/-!
# AkwaDB.Cluster.Rejected

Streams that `Restore` rejects. It checks the magic and the version, empties the database, and then reads
entry after entry, writing them in batches of a thousand. An error found on the way ends it where it is.

- `restore_error_db`: what is left behind an error.
- `restore_unchanged_iff`: that is what was there before only if the error is one of the first five bytes, or
  if the batches written describe the same content again.
-/

namespace AkwaDB
namespace Cluster

open Keyspace (Agree)
open Repl (applyBatchEntry)
open Server
open Wal (BatchWriteEntry)

/-- The bytes that are checked before the database is emptied. -/
def snapshotHeader : Bytes := snapshotMagic ++ [snapshotVersion]

/-- The entries in front of the end or the first error, as far as they fill batches. -/
def fullBatches (body : Bytes) : List BatchWriteEntry :=
  let entries := (readEntries body.length body).1
  entries.take (restoreBatchSize * (entries.length / restoreBatchSize))

def lastItem (entries : List BatchWriteEntry) (k : Bytes) : Option Item :=
  (entries.reverse.find? fun b => decide (b.key = k)).bind fun b =>
    if b.deleted then none else some ⟨b.value, b.expiresAt.toInt⟩

theorem foldl_applyBatchEntry (entries : List BatchWriteEntry) :
    (entries.foldl applyBatchEntry fun _ => none) = lastItem entries := by
  induction entries using List.reverseRecOn with
  | nil => rfl
  | append_singleton es b ih =>
    rw [List.foldl_append, ih]
    funext k
    unfold lastItem
    rw [List.reverse_append, List.reverse_singleton, List.singleton_append, List.find?_cons]
    rw [List.foldl_cons, List.foldl_nil]
    by_cases hk : b.key = k
    · subst hk
      rw [applyBatchEntry_own]
      simp [entryItem]
    · rw [applyBatchEntry_other (Ne.symm hk)]
      simp [hk]

theorem restore_bad_header {bytes : Bytes} (h : ¬snapshotHeader <+: bytes) (n : Node) :
    ((restore bytes).run n).2 = n := by
  unfold restore
  split
  · rfl
  · split
    · rfl
    · rename_i hmagic
      cases hrest : bytes.drop 4 with
      | nil => rfl
      | cons version body =>
        dsimp only
        split
        · rfl
        · rename_i hversion
          -- all five bytes are right
          refine absurd ⟨body, ?_⟩ h
          rw [← List.take_append_drop 4 bytes, hrest, not_not.mp hmagic, not_not.mp hversion]
          rfl

theorem restore_header (body : Bytes) (n : Node) :
    (restore (snapshotHeader ++ body)).run n =
      match readEntries body.length body with
      | (entries, none) => (.ok (), ((submitChunks restoreBatchSize entries.length entries).run n.clear).2)
      | (entries, some e) => (.error e, ((submitChunks restoreBatchSize entries.length
          (entries.take (restoreBatchSize * (entries.length / restoreBatchSize)))).run n.clear).2) := by
  have hlen : ¬(snapshotHeader ++ body).length < 4 := by
    have : snapshotHeader.length = 5 := rfl
    rw [List.length_append]
    omega
  have hdrop : (snapshotHeader ++ body).drop 4 = snapshotVersion :: body := rfl
  unfold restore
  rw [if_neg hlen, if_neg (fun hne => hne rfl), hdrop]
  dsimp only
  rw [if_neg (fun hne => hne rfl)]
  generalize readEntries body.length body = p
  obtain ⟨entries, err⟩ := p
  cases err <;> rfl

/-- **Behind an error the database holds the full batches**, and nothing of before. -/
theorem restore_error_db {body : Bytes} {n : Node} {e : RestoreError}
    (h : ((restore (snapshotHeader ++ body)).run n).1 = .error e) :
    ((restore (snapshotHeader ++ body)).run n).2.db = lastItem (fullBatches body) := by
  rw [restore_header] at h ⊢
  unfold fullBatches
  cases hread : readEntries body.length body with
  | mk entries err =>
    rw [hread] at h
    cases err with
    | none => cases h
    | some e' =>
      have hsize : 0 < restoreBatchSize := by decide
      have hfuel : (entries.take (restoreBatchSize * (entries.length / restoreBatchSize))).length ≤ entries.length :=
        List.length_take_le' _ _
      exact (submitChunks_run hsize hfuel n.clear).1.trans (foldl_applyBatchEntry _)

/-- **When a rejected stream leaves the content as it was.** -/
theorem restore_unchanged_iff {bytes : Bytes} {n : Node} {e : RestoreError}
    (h : ((restore bytes).run n).1 = .error e) :
    (∀ t, n.now ≤ t → ∀ k, ((restore bytes).run n).2.db.live t k = n.db.live t k) ↔
      ¬snapshotHeader <+: bytes ∨
        ∀ t, n.now ≤ t → ∀ k, Keyspace.live (lastItem (fullBatches (bytes.drop 5))) t k = n.db.live t k := by
  by_cases hheader : snapshotHeader <+: bytes
  · obtain ⟨body, rfl⟩ := hheader
    have hbody : (snapshotHeader ++ body).drop 5 = body := rfl
    rw [restore_error_db h, hbody]
    have hno : ¬¬snapshotHeader <+: snapshotHeader ++ body := not_not.mpr (List.prefix_append _ _)
    exact ⟨.inr, fun hor => hor.resolve_left hno⟩
  · rw [restore_bad_header hheader]
    exact ⟨fun _ => .inl hheader, fun _ _ _ _ => rfl⟩

theorem restore_unchanged_garbage :
    ((restore [110, 111, 116, 32, 97]).run counting).2.db.live 1000 [115, 0, 107] =
      counting.db.live 1000 [115, 0, 107] :=
  (@restore_unchanged_iff [110, 111, 116, 32, 97] counting .invalidMagic rfl).mpr (.inl (by decide)) 1000 le_rfl _

/-- A header and one stray byte: the error is reported, and the keys are gone. -/
theorem restore_loses_content :
    ((restore (snapshotHeader ++ [1])).run counting).1 = .error .entryHeader ∧
      counting.db.get 1000 [115, 0, 107] = some [49] ∧
      ((restore (snapshotHeader ++ [1])).run counting).2.db.get 1000 [115, 0, 107] = none := by
  decide +kernel

end Cluster
end AkwaDB
