import AkwaDB.Repl.Replica

/-!
# AkwaDB.Repl.History

A database that was copied while it was written to.

Such a copy has each key as it was at some moment since the copying began, and each key at another
one (`Since`). It becomes a copy of the present when everything written since is applied to it in the
order of the writes, although a good deal of that is in it already.

* `Since.effects` — what was written is applied in order, and the moments move on,
* `Since.agree` — there is no moment but the present left.
-/

namespace AkwaDB
namespace Repl

def ReplEntry.image (e : ReplEntry) : Option Item :=
  match e.op with
  | .put => some ⟨e.val, e.expiresAt.toInt⟩
  | .delete => none

section
variable (db : Keyspace)

theorem effect_eq (e : ReplEntry) : e.effect db = Function.update db e.key e.image := by
  cases h : e.op <;> simp [ReplEntry.effect, ReplEntry.image, h, Keyspace.putExAt, Keyspace.erase]

@[simp] theorem effect_same (e : ReplEntry) : e.effect db e.key = e.image := by
  rw [effect_eq, Function.update_self]

theorem effect_other (e : ReplEntry) {k : Bytes} (h : k ≠ e.key) : e.effect db k = db k := by
  rw [effect_eq, Function.update_of_ne h]

theorem effects_concat (es : List ReplEntry) (e : ReplEntry) :
    effects db (es ++ [e]) = e.effect (effects db es) := effects_append db es [e]

def plain (e : ReplEntry) : ReplEntry := { e with seq := 0 }

theorem effect_plain (e : ReplEntry) : (plain e).effect db = e.effect db := rfl

theorem effects_plain (es : List ReplEntry) : effects db (es.map plain) = effects db es := by
  induction es generalizing db with
  | nil => rfl
  | cons e es ih => exact ih (e.effect db)

end

def dbAfter (history : List ReplEntry) (i : Nat) : Keyspace := effects (fun _ => none) (history.take i)

theorem dbAfter_succ {history : List ReplEntry} {i : Nat} {e : ReplEntry} (h : history[i]? = some e) :
    dbAfter history (i + 1) = e.effect (dbAfter history i) := by
  rw [dbAfter, List.take_add_one, h]
  exact effects_concat _ _ _

theorem dbAfter_append {history more : List ReplEntry} {i : Nat} (h : i ≤ history.length) :
    dbAfter (history ++ more) i = dbAfter history i := by
  rw [dbAfter, List.take_append_of_le_length h]
  rfl

/-- Each key is as it was at some moment after the first `n` writes. -/
def Since (now : Int) (history : List ReplEntry) (n : Nat) (db : Keyspace) : Prop :=
  ∀ k, ∃ i, n ≤ i ∧ i ≤ history.length ∧ ∀ t, now ≤ t → db.live t k = (dbAfter history i).live t k

namespace Since

variable {now : Int} {history : List ReplEntry} {n : Nat} {db : Keyspace}

section
variable (h : Since now history n db)
include h

theorem mono {n' : Nat} (hn : n' ≤ n) : Since now history n' db := by
  intro k
  obtain ⟨i, hni, hi, hlive⟩ := h k
  exact ⟨i, hn.trans hni, hi, hlive⟩

theorem later {now' : Int} (ht : now ≤ now') : Since now' history n db := by
  intro k
  obtain ⟨i, hni, hi, hlive⟩ := h k
  exact ⟨i, hni, hi, fun t ht' => hlive t (ht.trans ht')⟩

theorem congr {db' : Keyspace} (heq : Keyspace.Agree now db' db) : Since now history n db' := by
  intro k
  obtain ⟨i, hni, hi, hlive⟩ := h k
  exact ⟨i, hni, hi, fun t ht => (heq t ht k).trans (hlive t ht)⟩

theorem append (more : List ReplEntry) : Since now (history ++ more) n db := by
  intro k
  obtain ⟨i, hni, hi, hlive⟩ := h k
  refine ⟨i, hni, by rw [List.length_append]; omega, ?_⟩
  rw [dbAfter_append hi]
  exact hlive

theorem effect {e : ReplEntry} (he : history[n]? = some e) :
    Since now history (n + 1) (e.effect db) := by
  intro k
  have hlt := (List.getElem?_eq_some_iff.mp he).1
  have hnext := dbAfter_succ he
  by_cases hk : k = e.key
  · refine ⟨n + 1, Nat.le_refl _, hlt, fun t _ => ?_⟩
    rw [Keyspace.live, Keyspace.live, hnext, hk, effect_same, effect_same]
  · obtain ⟨i, hni, hi, hlive⟩ := h k
    rcases Nat.lt_or_ge n i with hlt' | hge
    · refine ⟨i, hlt', hi, fun t ht => ?_⟩
      rw [← hlive t ht, Keyspace.live, effect_other _ _ hk]
      rfl
    · obtain rfl : i = n := by omega
      refine ⟨i + 1, Nat.le_refl _, hlt, fun t ht => ?_⟩
      have hi := hlive t ht
      rw [Keyspace.live, Keyspace.live] at hi ⊢
      rw [hnext, effect_other _ _ hk, effect_other _ _ hk]
      exact hi

theorem effects {m : Nat} (hn : n ≤ m) (hm : m ≤ history.length) :
    Since now history m (Repl.effects db ((history.take m).drop n)) := by
  induction m with
  | zero =>
    obtain rfl : n = 0 := by omega
    exact h
  | succ m ih =>
    rcases Nat.lt_or_ge n (m + 1) with hlt | hge
    · have hget : history[m]? = some (history.get ⟨m, hm⟩) := List.getElem?_eq_getElem hm
      have hsplit : (history.take (m + 1)).drop n = (history.take m).drop n ++ [history.get ⟨m, hm⟩] := by
        rw [List.take_add_one, hget, List.drop_append_of_le_length (by simp; omega)]
        rfl
      rw [hsplit, effects_concat]
      exact (ih (by omega) (by omega)).effect hget
    · obtain rfl : n = m + 1 := by omega
      rw [List.drop_eq_nil_of_le (by simp)]
      exact h

end

theorem agree (h : Since now history history.length db) :
    Keyspace.Agree now db (Repl.effects (fun _ => none) history) := by
  intro t ht k
  obtain ⟨i, hni, hi, hlive⟩ := h k
  obtain rfl : i = history.length := by omega
  rw [hlive t ht, dbAfter, List.take_length]

end Since
end Repl
end AkwaDB
