import Mathlib.Data.List.Basic
import Cascade.Flow.Report

/-!
# Reports as sorted unions

A report that absorbs another one keeps its own entries and gains the first entry that the other one
has for each node it did not report yet. The membership test runs against the growing list, so an
entry that is added hides the later ones of its node (`foldl_add`). The sort that follows is stable,
and entries of one node have one path, so it moves no entry past another one of its node
(`filter_sorted`).

## Main definitions

* `ReportEntry.node`: what two entries of one node share.
* `Report.firsts`: the first entry of each node that is not known.
* `Report.IsUnion`: the union of two reports, by node.

## Main statements

* `Report.absorb_isUnion`: absorbing is a union, happens at once, and reports the same nodes in
  whatever order it is done.
-/

namespace Cascade

/-- The node of an entry: the name of its document, and its path. -/
def ReportEntry.node (e : ReportEntry) : String × String := (e.source, e.path)

theorem ReportEntry.sameNode_iff {a b : ReportEntry} : a.sameNode b = true ↔ a.node = b.node := by
  unfold sameNode node
  rw [Bool.and_eq_true, beq_iff_eq, beq_iff_eq, Prod.mk.injEq]

namespace Report

/-- The nodes of a report. -/
def nodes (r : Report) : List (String × String) := r.entries.map ReportEntry.node

/-- The entries of a report for a path. -/
def entriesAt (r : Report) (path : String) : List ReportEntry :=
  r.entries.filter fun e => e.path = path

/-- The entries of a report for a node. -/
def entriesFor (r : Report) (node : String × String) : List ReportEntry :=
  r.entries.filter fun e => e.node = node

/-! ### What is added -/

/-- The first entry of each node that is not known. -/
def firsts (known : List (String × String)) : List ReportEntry → List ReportEntry
  | [] => []
  | e :: rest => if e.node ∈ known then firsts known rest else e :: firsts (known ++ [e.node]) rest

theorem add_eq (entries : List ReportEntry) (e : ReportEntry) :
    add entries e = if e.node ∈ entries.map ReportEntry.node then entries else entries ++ [e] := by
  have known : entries.any (ReportEntry.sameNode · e) = true ↔
      e.node ∈ entries.map ReportEntry.node := by
    simp only [List.any_eq_true, ReportEntry.sameNode_iff, List.mem_map]
  unfold add
  exact if_congr known rfl rfl

/-- Adding entries one by one appends those that are first for their node. -/
theorem foldl_add (entries known : List ReportEntry) :
    entries.foldl add known = known ++ firsts (known.map ReportEntry.node) entries := by
  induction entries generalizing known with
  | nil => rw [List.foldl_nil, firsts, List.append_nil]
  | cons e rest ih =>
    rw [List.foldl_cons, ih, add_eq, firsts]
    split
    · rfl
    · rw [List.map_append, List.append_assoc]
      rfl

theorem firsts_eq_nil {known : List (String × String)} {entries : List ReportEntry}
    (reported : ∀ e ∈ entries, e.node ∈ known) : firsts known entries = [] := by
  induction entries with
  | nil => rfl
  | cons e rest ih =>
    obtain ⟨here, later⟩ := List.forall_mem_cons.mp reported
    rw [firsts, if_pos here, ih later]

/-- Of the entries for a node that is not known the first one is added, and none for a node that
is. -/
theorem filter_firsts (known : List (String × String)) (entries : List ReportEntry)
    (node : String × String) :
    (firsts known entries).filter (fun e => e.node = node) =
      if node ∈ known then [] else (entries.filter fun e => e.node = node).take 1 := by
  induction entries generalizing known with
  | nil => simp [firsts]
  | cons e rest ih =>
    rw [firsts, List.filter_cons]
    by_cases same : e.node = node
    · -- The first entry of the node: it is added unless the node is known, and none of the rest is.
      subst same
      rw [if_pos (decide_eq_true rfl)]
      split
      · next reported => rw [ih, if_pos reported]
      · have later : e.node ∈ known ++ [e.node] := by simp
        rw [List.filter_cons, if_pos (decide_eq_true rfl), ih, if_pos later]
        rfl
    · have other : ¬decide (e.node = node) = true := fun holds => same (of_decide_eq_true holds)
      rw [if_neg other]
      split
      · exact ih known
      · rw [List.filter_cons, if_neg other, ih]
        refine if_congr ?_ rfl rfl
        rw [List.mem_append, List.mem_singleton]
        exact or_iff_left fun holds => same holds.symm

/-! ### Sorting -/

theorem before_trans (a b c : ReportEntry) (first : a.before b = true)
    (second : b.before c = true) : a.before c = true :=
  decide_eq_true (String.le_trans (of_decide_eq_true first) (of_decide_eq_true second))

theorem before_total (a b : ReportEntry) : (a.before b || b.before a) = true := by
  rw [Bool.or_eq_true]
  exact (String.le_total a.path b.path).imp decide_eq_true decide_eq_true

theorem pairwise_sorted (entries : List ReportEntry) :
    (sorted entries).entries.Pairwise fun a b => a.path ≤ b.path :=
  (List.pairwise_mergeSort before_trans before_total entries).imp of_decide_eq_true

/-- Entries that are sorted stay where they are. -/
theorem sorted_of_pairwise {entries : List ReportEntry}
    (inOrder : entries.Pairwise fun a b => a.path ≤ b.path) : sorted entries = ⟨entries⟩ :=
  congrArg Report.mk (List.mergeSort_of_pairwise (inOrder.imp decide_eq_true))

/-- Sorting keeps the order of entries that have one path. -/
theorem filter_sorted {entries : List ReportEntry} {p : ReportEntry → Bool} (path : String)
    (onPath : ∀ e, p e = true → e.path = path) :
    (sorted entries).entries.filter p = entries.filter p := by
  have inOrder : (entries.filter p).Pairwise fun a b => a.before b = true := by
    refine List.pairwise_of_forall_mem_list fun a first b second => ?_
    have same :=
      (onPath a (List.of_mem_filter first)).trans (onPath b (List.of_mem_filter second)).symm
    exact decide_eq_true (same ▸ String.le_refl a.path)
  -- The sort is stable, so the entries are among the sorted ones in their order; there are no more.
  have kept : (entries.filter p).Sublist ((sorted entries).entries.filter p) := by
    have inside := List.sublist_mergeSort before_trans before_total inOrder List.filter_sublist
    have again := inside.filter p
    rwa [List.filter_filter, show (fun e => p e && p e) = p from funext fun e => Bool.and_self _]
      at again
  refine (kept.eq_of_length ?_).symm
  exact ((List.mergeSort_perm entries _).filter p).length_eq.symm

theorem entriesAt_sorted (entries : List ReportEntry) (path : String) :
    (sorted entries).entriesAt path = entries.filter fun e => e.path = path :=
  filter_sorted path fun _ onPath => of_decide_eq_true onPath

theorem entriesFor_sorted (entries : List ReportEntry) (node : String × String) :
    (sorted entries).entriesFor node = entries.filter fun e => e.node = node :=
  filter_sorted node.2 fun _ ofNode => congrArg Prod.snd (of_decide_eq_true ofNode)

/-! ### Unions -/

/-- The report is the union of two others by node: it is sorted, has the entries of the first report
in their order, and for each other node the first entry that the second report has, and no more. -/
structure IsUnion (a b r : Report) : Prop where
  sorted : r.entries.Pairwise fun x y => x.path ≤ y.path
  keeps : ∀ path, a.entriesAt path <+: r.entriesAt path
  entriesFor : ∀ node, r.entriesFor node =
    if node ∈ a.nodes then a.entriesFor node else (b.entriesFor node).take 1

theorem absorb_eq (a b : Report) : a.absorb b = sorted (a.entries ++ firsts a.nodes b.entries) := by
  unfold absorb
  rw [foldl_add]
  rfl

theorem entriesFor_eq_nil_iff {r : Report} {node : String × String} :
    r.entriesFor node = [] ↔ node ∉ r.nodes := by
  simp [entriesFor, nodes]

theorem isUnion_absorb (a b : Report) : IsUnion a b (a.absorb b) where
  sorted := by
    rw [absorb_eq]
    exact pairwise_sorted _
  keeps := by
    intro path
    rw [absorb_eq, entriesAt_sorted, List.filter_append]
    exact List.prefix_append _ _
  entriesFor := by
    intro node
    rw [absorb_eq, entriesFor_sorted, List.filter_append, filter_firsts]
    split
    · exact List.append_nil _
    · next fresh =>
      show a.entriesFor node ++ (b.entriesFor node).take 1 = _
      rw [entriesFor_eq_nil_iff.mpr fresh, List.nil_append]

namespace IsUnion

variable {a b r : Report}

theorem mem_nodes (union : IsUnion a b r) {node : String × String} :
    node ∈ r.nodes ↔ node ∈ a.nodes ∨ node ∈ b.nodes := by
  rw [← not_iff_not, not_or, ← entriesFor_eq_nil_iff, union.entriesFor]
  split
  · next known => simp [entriesFor_eq_nil_iff, known]
  · next fresh => simp [entriesFor_eq_nil_iff, fresh, List.take_eq_nil_iff]

/-- A union with a report has nothing more to take from it. -/
theorem absorb_eq_self (union : IsUnion a b r) : r.absorb b = r := by
  have nothing : firsts r.nodes b.entries = [] := by
    refine firsts_eq_nil fun e member => ?_
    exact union.mem_nodes.mpr (.inr (List.mem_map_of_mem member))
  rw [absorb_eq, nothing, List.append_nil, sorted_of_pairwise union.sorted]

end IsUnion

/-- Absorbing a report is a union of reports by node. Absorbing it again changes nothing, and the
order in which two reports are absorbed makes no difference to the nodes. -/
theorem absorb_isUnion (a b c : Report) :
    IsUnion a b (a.absorb b) ∧ (a.absorb b).absorb b = a.absorb b ∧
      ∀ node, node ∈ ((a.absorb b).absorb c).nodes ↔ node ∈ ((a.absorb c).absorb b).nodes := by
  refine ⟨isUnion_absorb a b, (isUnion_absorb a b).absorb_eq_self, ?_⟩
  intro node
  rw [(isUnion_absorb _ c).mem_nodes, (isUnion_absorb a b).mem_nodes,
    (isUnion_absorb _ b).mem_nodes, (isUnion_absorb a c).mem_nodes]
  exact or_right_comm

end Report

end Cascade
