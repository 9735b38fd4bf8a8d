import AkwaDB.Store.Entry
import Mathlib.Logic.Function.Basic

/-!
# AkwaDB.Store.Keyspace

A database as its readers see it: of every key the value and expiry of its newest version.

Two such databases agree from some time on (`Agree`) when no reader will ever tell them apart again;
an entry that has expired may be kept, replaced by a tombstone, or never have been written.
-/

namespace AkwaDB

structure Item where
  value : Bytes
  expiresAt : Int
  deriving DecidableEq, Repr

def Item.expired (now : Int) (i : Item) : Bool := decide (0 < i.expiresAt) && decide (i.expiresAt ≤ now)

/-- The test of the scans, which differs for an expiry below zero. -/
def Item.listed (now : Int) (i : Item) : Bool := decide (i.expiresAt = 0) || decide (now < i.expiresAt)

/-- What is left of an expiry, `-1` without one and `-2` for a key that is not there. The difference is one of machine
integers: an expiry far below zero has much time left. -/
def remaining (now : Int) : Option Item → Int64
  | none => -2
  | some i =>
    if i.expiresAt = 0 then -1
    else
      let rem := Int64.ofInt (i.expiresAt - now)
      if rem ≤ 0 then -2 else rem

/-- Some time is left of the expiry. -/
def Item.lasts (now : Int) (i : Item) : Bool := decide (0 < remaining now (some i))

theorem Item.expired_mono {now now' : Int} {i : Item} (h : now ≤ now') (hi : i.expired now = true) :
    i.expired now' = true := by
  simp only [expired, Bool.and_eq_true, decide_eq_true_eq] at hi ⊢
  exact ⟨hi.1, by omega⟩

abbrev Keyspace := Bytes → Option Item

namespace Keyspace

def live (db : Keyspace) (now : Int) (k : Bytes) : Option Item := (db k).filter fun i => !i.expired now

def get (db : Keyspace) (now : Int) (k : Bytes) : Option Bytes := (db.live now k).map Item.value

def ttl (db : Keyspace) (now : Int) (k : Bytes) : Int := (remaining now (db.live now k)).toInt

def putExAt (db : Keyspace) (k v : Bytes) (expiresAt : Int) : Keyspace :=
  Function.update db k (some ⟨v, expiresAt⟩)

def putEx (db : Keyspace) (now : Int) (k v : Bytes) (ttlSeconds : Int) : Keyspace :=
  db.putExAt k v (if 0 < ttlSeconds then now + ttlSeconds else 0)

def erase (db : Keyspace) (k : Bytes) : Keyspace := Function.update db k none

/-- `Delete` writes a tombstone only for a key that is there. -/
def delete (db : Keyspace) (now : Int) (k : Bytes) : Keyspace :=
  if (db.live now k).isSome then db.erase k else db

variable {a b c db : Keyspace} {now now' : Int} {k : Bytes}

theorem live_eq_none_mono (h : now ≤ now') (hk : db.live now k = none) : db.live now' k = none := by
  unfold live at hk ⊢
  rw [Option.filter_eq_none_iff] at hk ⊢
  intro i hi hlive
  refine hk i hi ?_
  rw [Bool.not_eq_true'] at hlive ⊢
  by_contra hexp
  rw [Item.expired_mono h (by simpa using hexp)] at hlive
  cases hlive

@[simp] theorem live_putExAt_same (v : Bytes) (expiresAt : Int) :
    (db.putExAt k v expiresAt).live now k = (some ⟨v, expiresAt⟩ : Option Item).filter fun i => !i.expired now := by
  simp [live, putExAt]

theorem live_putExAt_other {j : Bytes} (h : j ≠ k) (v : Bytes) (expiresAt : Int) :
    (db.putExAt k v expiresAt).live now j = db.live now j := by
  simp [live, putExAt, h]

@[simp] theorem live_erase_same : (db.erase k).live now k = none := by
  simp [live, erase]

theorem live_erase_other {j : Bytes} (h : j ≠ k) : (db.erase k).live now j = db.live now j := by
  simp [live, erase, h]

/-- Nobody tells the two apart from now on. -/
def Agree (now : Int) (a b : Keyspace) : Prop := ∀ t, now ≤ t → ∀ k, a.live t k = b.live t k

namespace Agree

theorem refl (now : Int) (a : Keyspace) : Agree now a a := fun _ _ _ => rfl

section
variable (h : Agree now a b)
include h

theorem symm : Agree now b a := fun t ht k => (h t ht k).symm

theorem trans (h' : Agree now b c) : Agree now a c := fun t ht k =>
  (h t ht k).trans (h' t ht k)

theorem later (ht : now ≤ now') : Agree now' a b := fun t ht' k =>
  h t (ht.trans ht') k

theorem get (k : Bytes) : a.get now k = b.get now k := by
  rw [Keyspace.get, Keyspace.get, h now (Int.le_refl now) k]

theorem ttl (k : Bytes) : a.ttl now k = b.ttl now k := by
  rw [Keyspace.ttl, Keyspace.ttl, h now (Int.le_refl now) k]

theorem putExAt (k v : Bytes) (expiresAt : Int) :
    Agree now (a.putExAt k v expiresAt) (b.putExAt k v expiresAt) := by
  intro t ht j
  by_cases hj : j = k
  · subst hj
    simp
  · rw [live_putExAt_other hj, live_putExAt_other hj]
    exact h t ht j

theorem erase (k : Bytes) : Agree now (a.erase k) (b.erase k) := by
  intro t ht j
  by_cases hj : j = k
  · subst hj
    simp
  · rw [live_erase_other hj, live_erase_other hj]
    exact h t ht j

end

end Agree

theorem agree_live (db : Keyspace) (now : Int) : Agree now (db.live now) db := by
  intro t ht k
  show ((db k).filter _).filter _ = (db k).filter _
  cases h : db k with
  | none => rfl
  | some i =>
    cases hexp : i.expired now with
    | false => simp only [Option.filter_some, hexp, Bool.not_false, if_true]
    | true => simp only [Option.filter_some, hexp, Item.expired_mono ht hexp, Bool.not_true, Bool.false_eq_true,
        if_false, Option.filter_none]

theorem agree_erase (h : db.live now k = none) : Agree now db (db.erase k) := by
  intro t ht j
  by_cases hj : j = k
  · subst hj
    rw [live_erase_same]
    exact live_eq_none_mono ht h
  · rw [live_erase_other hj]

theorem agree_putExAt_expired {v : Bytes} {expiresAt : Int} (hpos : 0 < expiresAt) (h : expiresAt ≤ now) :
    Agree now (db.putExAt k v expiresAt) (db.erase k) := by
  intro t ht j
  by_cases hj : j = k
  · subst hj
    simp only [live_putExAt_same, live_erase_same, Option.filter_eq_none_iff, Option.some.injEq]
    rintro i rfl
    simp only [Item.expired, Bool.not_eq_true', Bool.and_eq_false_iff, decide_eq_false_iff_not]
    omega
  · rw [live_putExAt_other hj, live_erase_other hj]

/-- What a list of versions, the later ones in front, comes to. -/
def ofEntries (log : List Entry) : Keyspace := fun k =>
  (newest Entry.version (Entry.hits k fun _ => true) log).bind fun x =>
    if x.deleted then none else some ⟨x.value, x.expiresAt⟩

theorem live_ofEntries {log : List Entry} {x : Entry}
    (h : newest Entry.version (Entry.hits k fun _ => true) log = some x) :
    (ofEntries log).live now k = if x.dead now then none else some ⟨x.value, x.expiresAt⟩ := by
  unfold live ofEntries Entry.dead
  rw [h, Option.bind_some]
  cases x.deleted with
  | true => rfl
  | false =>
    by_cases hexp : x.expired now = true
    · have hitem : (⟨x.value, x.expiresAt⟩ : Item).expired now = true := hexp
      simp [hexp, hitem]
    · have hitem : (⟨x.value, x.expiresAt⟩ : Item).expired now = false := Bool.eq_false_iff.mpr hexp
      simp [hexp, hitem]

theorem live_ofEntries_none {log : List Entry}
    (h : newest Entry.version (Entry.hits k fun _ => true) log = none) : (ofEntries log).live now k = none := by
  simp [live, ofEntries, h]

theorem dead_of_live_eq_none {log : List Entry} (h : (ofEntries log).live now k = none) :
    ∀ x ∈ newest Entry.version (Entry.hits k fun _ => true) log, x.dead now = true := by
  intro x hx
  rw [live_ofEntries hx] at h
  by_contra hdead
  rw [if_neg hdead] at h
  cases h

theorem agree_delete (db : Keyspace) (now : Int) (k : Bytes) : Agree now (db.delete now k) (db.erase k) := by
  unfold delete
  split
  · exact .refl _ _
  · rename_i hnone
    exact agree_erase (by simpa using hnone)

end Keyspace
end AkwaDB
