import LiterateSync.Proofs.Document.Edits
import LiterateSync.Session.Command

namespace LiterateSync.Session

/-- The document that comes after the first patch of a history: the one that the next patch was
    applied to, or the current one behind the last patch. -/
def documentAfter (later : List Applied) (current : Document) : Document :=
  (later.head?.map (·.before)).getD current

@[simp] theorem documentAfter_nil (current : Document) : documentAfter [] current = current := rfl

@[simp] theorem documentAfter_cons (a : Applied) (later : List Applied) (current : Document) :
    documentAfter (a :: later) current = a.before := rfl

/-- Whether the patches of a history lead from each of its documents to the next one, and from
    the last one to `current`. -/
def Replays : List Applied → Document → Prop
  | [], _ => True
  | a :: later, current =>
    a.before.apply a.patch = .ok (documentAfter later current) ∧ Replays later current

theorem Replays.append {history : List Applied} {current next : Document}
    (h : Replays history current) {origin : PeerId} {patch : Patch}
    (happly : current.apply patch = .ok next) :
    Replays (history ++ [⟨origin, current, patch⟩]) next := by
  induction history with
  | nil => exact ⟨happly, trivial⟩
  | cons a later ih =>
    obtain ⟨ha, hlater⟩ := h
    refine ⟨?_, ih hlater⟩
    cases later with
    | nil => exact ha
    | cons b later => exact ha

theorem Replays.drop {history : List Applied} {current : Document} (h : Replays history current)
    (n : Nat) : Replays (history.drop n) current := by
  induction n generalizing history with
  | zero => exact h
  | succ n ih =>
    cases history with
    | nil => trivial
    | cons a later => exact ih h.2

theorem Replays.dropWhile {history : List Applied} {current : Document}
    (h : Replays history current) (p : Applied → Bool) :
    Replays (history.dropWhile p) current := by
  induction history with
  | nil => trivial
  | cons a later ih =>
    rw [List.dropWhile_cons]
    split
    · exact ih h.2
    · exact h

theorem revision_of_apply {d next : Document} {patch : Patch} (h : d.apply patch = .ok next) :
    patch.base = d.revision ∧ next.revision = d.revision + 1 := by
  obtain ⟨hbase, blocks, ids, -, rfl⟩ := Document.apply_eq_ok_iff.1 h
  exact ⟨hbase, rfl⟩

/-- The revisions of a history follow each other up to the current one. -/
theorem Replays.revisions {history : List Applied} {current : Document}
    (h : Replays history current) :
    history.length ≤ current.revision ∧
      history.map (·.before.revision) =
        List.range' (current.revision - history.length) history.length := by
  induction history with
  | nil => exact ⟨Nat.zero_le _, rfl⟩
  | cons a later ih =>
    obtain ⟨ha, hlater⟩ := h
    obtain ⟨hlength, hrevisions⟩ := ih hlater
    have hnext := (revision_of_apply ha).2
    have hafter : (documentAfter later current).revision = current.revision - later.length := by
      cases later with
      | nil => rfl
      | cons b later => simpa [List.range'_succ] using congrArg List.head? hrevisions
    have hsucc : current.revision - later.length = a.before.revision + 1 := hafter ▸ hnext
    have hfirst : current.revision - (later.length + 1) = a.before.revision := by omega
    refine ⟨by simp only [List.length_cons]; omega, ?_⟩
    rw [List.map_cons, hrevisions, List.length_cons, hfirst, List.range'_succ, hsucc]

theorem Replays.revision_lt {history : List Applied} {current : Document}
    (h : Replays history current) {a : Applied} (ha : a ∈ history) :
    a.before.revision < current.revision := by
  obtain ⟨hlength, hrevisions⟩ := h.revisions
  have hmem : a.before.revision ∈ history.map (·.before.revision) := List.mem_map_of_mem ha
  rw [hrevisions] at hmem
  obtain ⟨-, hlt⟩ := List.mem_range'_1.1 hmem
  omega

/-- A later revision of a history is a greater one. -/
theorem Replays.pairwise_revision {history : List Applied} {current : Document}
    (h : Replays history current) :
    history.Pairwise fun x y => x.before.revision < y.before.revision := by
  have hrange : (history.map (·.before.revision)).Pairwise (· < ·) := by
    rw [h.revisions.2]
    exact List.pairwise_lt_range'
  exact List.pairwise_map.1 hrange

theorem length_keepLast_le {α : Type} (n : Nat) (items : List α) :
    (keepLast n items).length ≤ n := by
  rw [keepLast, List.length_drop]
  omega

theorem getLast?_keepLast {α : Type} {n : Nat} (hn : 0 < n) (items : List α) (a : α) :
    (keepLast n (items ++ [a])).getLast? = some a := by
  have hle : (items ++ [a]).length - n ≤ items.length := by
    rw [List.length_append, List.length_singleton]
    omega
  rw [keepLast, List.drop_append_of_le_length hle, List.getLast?_concat]

theorem replays_keepLast {history : List Applied} {current : Document} (n : Nat)
    (h : Replays history current) : Replays (keepLast n history) current :=
  h.drop _

theorem historyFrom_sublist (base : Nat) (history : List Applied) :
    (historyFrom base history).Sublist history :=
  List.dropWhile_sublist _

theorem Replays.historyFrom {history : List Applied} {current : Document}
    (h : Replays history current) (base : Nat) : Replays (historyFrom base history) current :=
  h.dropWhile _

/-- The history from a revision on has the patches that were applied to that revision or to a later
    one. -/
theorem mem_of_mem_historyFrom {history later : List Applied} {first a : Applied}
    {current : Document} {revision : Nat} (hreplays : Replays history current)
    (hfrom : historyFrom revision history = first :: later)
    (hfirst : first.before.revision = revision) (ha : a ∈ first :: later) :
    a ∈ history ∧ revision ≤ a.before.revision := by
  have hsince : Replays (first :: later) current := hfrom ▸ hreplays.historyFrom revision
  constructor
  · exact (historyFrom_sublist revision history).subset (hfrom ▸ ha)
  · obtain rfl | ha := List.mem_cons.1 ha
    · exact Nat.le_of_eq hfirst.symm
    · have hlt := (List.pairwise_cons.1 hsince.pairwise_revision).1 a ha
      omega

/-- The history from a document on that is still known begins with that document. -/
theorem exists_historyFrom {base : Nat} {history : List Applied} {d : Document}
    (h : (history.map (·.before)).find? (fun d => d.revision = base) = some d) :
    ∃ a later, historyFrom base history = a :: later ∧ a.before = d := by
  induction history with
  | nil => cases h
  | cons a history ih =>
    rw [List.map_cons, List.find?_cons] at h
    by_cases hbase : a.before.revision = base
    · rw [decide_eq_true hbase] at h
      cases h
      exact ⟨a, history, by simp [historyFrom, hbase], rfl⟩
    · rw [decide_eq_false hbase] at h
      obtain ⟨b, later, heq, hb⟩ := ih h
      exact ⟨b, later, by rw [← heq]; simp [historyFrom, hbase], hb⟩

/-- Whether the names are distinct in all documents of a history, and in the current one. -/
def Distinct (history : List Applied) (current : Document) : Prop :=
  ∀ d ∈ history.map (·.before) ++ [current], (d.blocks.map (·.id)).Nodup

namespace Distinct

variable {a : Applied} {history : List Applied} {current : Document}

theorem head (h : Distinct (a :: history) current) : (a.before.blocks.map (·.id)).Nodup :=
  h a.before List.mem_cons_self

theorem tail (h : Distinct (a :: history) current) : Distinct history current :=
  fun d hd => h d (List.mem_cons_of_mem _ hd)

theorem documentAfter (h : Distinct history current) :
    ((documentAfter history current).blocks.map (·.id)).Nodup := by
  cases history with
  | nil => exact h current (by simp)
  | cons a history => exact h.head

theorem historyFrom (h : Distinct history current) (base : Nat) :
    Distinct (historyFrom base history) current := by
  exact fun d hd => h d
    (((historyFrom_sublist base history).map _ |>.append_right _).subset hd)

end Distinct

end LiterateSync.Session
