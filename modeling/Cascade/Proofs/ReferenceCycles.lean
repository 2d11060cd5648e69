import Mathlib.Data.Set.Finite.Basic
import Mathlib.Logic.Relation
import Cascade.Proofs.Convergence

/-!
# Cycles of references

An expression of a settled ordinary document that still waits has a reference to an expression that
waits as well: one that its way leads through, or one in the tree that it leads to. There are only
finitely many expressions, so these references lead back to where they started. What a report shows
as waiting depends on a cycle of references; a document without cycles is reported without such
entries.

## Main definitions

* `Node.RefersTo`: the references of a tree, from place to place.
* `Node.MayReferTo`: those that it has wherever the search for a relative name ends.
* `Node.IsReportedAt`: the entries of a report by place.

## Main statements

* `settle_ordinary`: the passes over an ordinary document end, settle nodes for good, and leave only
  cycles waiting.
-/

namespace Cascade

/-! ### References from place to place -/

/-- An expression at a place has a reference whose way leads through another place, or to a node
that the other place is at or below. -/
def Node.RefersTo (defaultKey : String) (tree : Node) (place other : List String) : Prop :=
  ∃ node e r way, tree.lookup? place defaultKey = some node ∧ node.expr? = some e ∧
    .reference r ∈ e.walk ∧ r.way? defaultKey tree place = some way ∧
    (other <+: way ∨ way <+: other)

/-- The reference means the path if the search for its first name ends in a map around the place
that has the name, not necessarily the innermost one. -/
def Reference.MayMean (r : Reference) (defaultKey : String) (tree : Node)
    (place way : List String) : Prop :=
  if r.absolute then way = r.path
  else ∃ first depth, r.path.head? = some first ∧ depth < place.length ∧
    hasNameAt defaultKey tree place first depth = true ∧ way = place.take depth ++ r.path

/-- An expression at a place has a reference that may mean a path through another place, or to a
node that the other place is at or below. -/
def Node.MayReferTo (defaultKey : String) (tree : Node) (place other : List String) : Prop :=
  ∃ node e r way, tree.lookup? place defaultKey = some node ∧ node.expr? = some e ∧
    .reference r ∈ e.walk ∧ r.MayMean defaultKey tree place way ∧
    (other <+: way ∨ way <+: other)

/-- The entry of a report is that of the node at a place. -/
def Node.IsReportedAt (defaultKey : String) (tree : Node) (place : List String)
    (entry : ReportEntry) : Prop :=
  ∃ node, tree.lookup? place defaultKey = some node ∧ Report.entryOf? node place = some entry

/-- A reference means its way. -/
theorem Reference.mayMean_of_way? {r : Reference} {defaultKey : String} {tree : Node}
    {place way : List String} (means : r.way? defaultKey tree place = some way) :
    r.MayMean defaultKey tree place way := by
  unfold Reference.way? at means
  unfold Reference.MayMean
  split at means
  · next absolute =>
    cases means
    rw [if_pos absolute]
  · next relative =>
    rw [if_neg relative]
    cases path : r.path with
    | nil =>
      rw [path] at means
      cases means
    | cons first rest =>
      rw [path] at means
      obtain ⟨depth, innermost, rfl⟩ := Option.map_eq_some_iff.mp means
      have member := List.mem_of_find?_eq_some innermost
      exact ⟨first, depth, rfl, by simpa using member, List.find?_some innermost, rfl⟩

/-- The references of what is left of a tree are references that the tree may have. -/
theorem Node.IsLeftOf.mayReferTo {defaultKey : String} {tree root : Node}
    {place other : List String} (left : tree.IsLeftOf defaultKey root)
    (refers : tree.RefersTo defaultKey place other) :
    root.MayReferTo defaultKey place other := by
  obtain ⟨node, e, r, way, stands, written, member, means, near⟩ := refers
  obtain ⟨found, reaches, before⟩ := left.expressions place node e stands written
  refine ⟨found, e, r, way, reaches, before, member, ?_, near⟩
  have meant := Reference.mayMean_of_way? means
  unfold Reference.MayMean at meant ⊢
  split at meant
  · next absolute => rwa [if_pos absolute]
  · next relative =>
    rw [if_neg relative]
    obtain ⟨first, depth, head, around, named, same⟩ := meant
    exact ⟨first, depth, head, around,
      left.names place node e first depth stands written around named, same⟩

/-! ### Finding a cycle -/

/-- Among finitely many things each of which has a successor among them, there is a cycle. -/
theorem exists_cycle_of_successors {α : Type} {r : α → α → Prop} {items : List α} {start : α}
    (member : start ∈ items) (onward : ∀ a ∈ items, ∃ b ∈ items, r a b) :
    ∃ a, Relation.TransGen r a a := by
  by_contra acyclic
  rw [not_exists] at acyclic
  let later (x y : { a // a ∈ items }) : Prop := Relation.TransGen r y.1 x.1
  have : IsTrans _ later := ⟨fun _ _ _ first second => second.trans first⟩
  have : Std.Irrefl later := ⟨fun x => acyclic x.1⟩
  have : Finite { a // a ∈ items } := (List.finite_toSet items).to_subtype
  have nothing (x : { a // a ∈ items }) : False := by
    induction x using (Finite.wellFounded_of_trans_of_irrefl later).induction with
    | h x ih =>
      obtain ⟨next, known, refers⟩ := onward x.1 x.2
      exact ih ⟨next, known⟩ (.single refers)
  exact nothing ⟨start, member⟩

/-! ### What waits in a settled document -/

section

variable {engine : Engine} {deeper : Deeper} {s : Setting} {tree node : Node} {e : Expr}
  {place : List String}
  (snapshot : OrdinarySnapshot engine deeper s tree) (fixed : s.after engine deeper tree = tree)
  (alone : s.IsAlone)

include snapshot fixed alone

/-- The expressions of a settled document show the outcomes that they have over it. -/
theorem OrdinarySnapshot.outcome_of_fixed
    (stands : tree.lookup? place engine.defaultKey = some node) (written : node.expr? = some e) :
    ∃ u, s.outcomes engine deeper tree e place = .error u ∧ node.value = .expression e ∧
      u.kind = Report.kindOf node.annotations := by
  have advances : tree.advance (s.outcomes engine deeper tree) [] = some tree := by
    rcases snapshot.after_cases alone with advances | ⟨⟨e, written, -⟩, -, simple⟩
    · rwa [fixed] at advances
    · rw [fixed] at simple
      rw [Node.expr?_of_isSimple simple] at written
      cases written
  obtain ⟨found, u, -, -, outcome, rfl⟩ :=
    snapshot.ordinary.lookup?_of_advance (snapshot.areSimple alone) advances stands written
  exact ⟨u, outcome, rfl, rfl⟩

/-- An expression that waits is reported so. -/
theorem OrdinarySnapshot.exists_entry
    (stands : tree.lookup? place engine.defaultKey = some node) (waits : node.waits = true) :
    ∃ entry ∈ (Report.collect tree engine.defaultKey).entries, entry.kind = .unresolved ∧
      tree.IsReportedAt engine.defaultKey place entry := by
  obtain ⟨⟨e, written⟩, kind⟩ := Node.waits_iff.mp waits
  obtain ⟨u, -, value, -⟩ := snapshot.outcome_of_fixed fixed alone stands written
  have shows : ∃ entry, Report.entryOf? node place = some entry ∧ entry.kind = .unresolved := by
    rw [Report.entryOf?, Report.expression?, value]
    exact ⟨_, rfl, kind⟩
  obtain ⟨entry, shows, unresolved⟩ := shows
  refine ⟨entry, List.mem_mergeSort.mpr ?_, unresolved, node, stands, shows⟩
  exact snapshot.ordinary.mem_entriesOf_iff.mpr ⟨place, node, e, stands, written, shows⟩

/-- An expression that waits refers to one that waits. -/
theorem OrdinarySnapshot.exists_blocker
    (stands : tree.lookup? place engine.defaultKey = some node) (waits : node.waits = true) :
    ∃ other blocker, tree.RefersTo engine.defaultKey place other ∧
      tree.lookup? other engine.defaultKey = some blocker ∧ blocker.waits = true := by
  obtain ⟨⟨e, written⟩, kind⟩ := Node.waits_iff.mp waits
  obtain ⟨u, outcome, -, alike⟩ := snapshot.outcome_of_fixed fixed alone stands written
  have plain := ((snapshot.ordinary.lookup? stands).of_expr? written).1
  obtain ⟨r, way, other, blocker, member, means, near, reaches, still⟩ :=
    exists_blocker_of_outcomes alone.noLocals alone.outermost snapshot.ordinary plain outcome
      (alike.trans kind)
  exact ⟨other, blocker, ⟨node, e, r, way, stands, written, member, means, near⟩, reaches, still⟩

omit fixed alone in
/-- What is reported as waiting stands at a place and waits. -/
theorem OrdinarySnapshot.exists_of_entry {entry : ReportEntry}
    (member : entry ∈ (Report.collect tree engine.defaultKey).entries)
    (unresolved : entry.kind = .unresolved) :
    ∃ place node, tree.lookup? place engine.defaultKey = some node ∧ node.waits = true ∧
      Report.entryOf? node place = some entry := by
  obtain ⟨place, node, e, stands, written, shows⟩ :=
    snapshot.ordinary.mem_entriesOf_iff.mp (List.mem_mergeSort.mp member)
  refine ⟨place, node, stands, Node.waits_iff.mpr ⟨⟨e, written⟩, ?_⟩, shows⟩
  obtain ⟨text, -, same⟩ := Option.map_eq_some_iff.mp shows
  rw [← same] at unresolved
  exact unresolved

/-- Where something waits, there is a cycle of references. -/
theorem OrdinarySnapshot.exists_cycle
    (stands : tree.lookup? place engine.defaultKey = some node) (waits : node.waits = true) :
    ∃ place, Relation.TransGen (tree.RefersTo engine.defaultKey) place place := by
  have counted {place : List String} {node : Node}
      (stands : tree.lookup? place engine.defaultKey = some node) (waits : node.waits = true) :
      place ∈ tree.waitingPlaces [] :=
    (snapshot.ordinary.mem_waitingPlaces_iff engine.defaultKey).mpr
      ⟨place, node, rfl, stands, waits⟩
  refine exists_cycle_of_successors (counted stands waits) fun place member => ?_
  obtain ⟨path, node, rfl, stands, waits⟩ :=
    (snapshot.ordinary.mem_waitingPlaces_iff engine.defaultKey).mp member
  obtain ⟨other, blocker, refers, reaches, still⟩ :=
    snapshot.exists_blocker fixed alone stands waits
  exact ⟨other, counted reaches still, refers⟩

end

/-! ### Ordinary documents -/

/-- The passes over an ordinary document reach a tree that they do not change any more, if there are
two more of them than expressions. From pass to pass, a node that has its value keeps it, and an
expression that failed, or that depends on a failure, stays one of its kind. Whatever the report of
the settled tree shows as waiting refers to something that it shows as waiting, so that it shows
nothing of the kind if the references form no cycle: neither those of the settled tree, nor those
that the document may have. -/
theorem settle_ordinary (engine : Engine) (deeper : Deeper) (s : Setting) (alone : s.IsAlone)
    (root : Node) (ordinary : root.Ordinary) (fresh : root.hasError = false)
    (enough : (root.waitingPlaces []).length + 2 ≤ engine.maxPasses) :
    ∃ tree, settle engine deeper s root = pure (some tree) ∧
      (∀ before after world world', Snapshot engine deeper s root before →
        pass engine deeper s before world = some (after, world') →
        ∀ path node, before.lookup? path engine.defaultKey = some node →
          (node.isResolved = true → after.lookup? path engine.defaultKey = some node) ∧
          ∀ e, node.expr? = some e → Report.kindOf node.annotations ≠ .unresolved →
            ∃ left, after.lookup? path engine.defaultKey = some left ∧
              left.value = .expression e ∧
              Report.kindOf left.annotations = Report.kindOf node.annotations) ∧
      (∀ entry ∈ (Report.collect tree engine.defaultKey).entries, entry.kind = .unresolved →
        ∃ place other, tree.IsReportedAt engine.defaultKey place entry ∧
          tree.RefersTo engine.defaultKey place other ∧
          ∃ blocker ∈ (Report.collect tree engine.defaultKey).entries,
            blocker.kind = .unresolved ∧ tree.IsReportedAt engine.defaultKey other blocker) ∧
      ((∀ place, ¬Relation.TransGen (tree.RefersTo engine.defaultKey) place place) ∨
        (∀ place, ¬Relation.TransGen (root.MayReferTo engine.defaultKey) place place) →
        ∀ entry ∈ (Report.collect tree engine.defaultKey).entries, entry.kind ≠ .unresolved) := by
  have seeded : s.seeded engine root = root := by
    rw [Setting.seeded]
    split
    · exact seedOverrides_of_noStubs alone.noStubs
    · rfl
  have start : OrdinarySnapshot engine deeper s root := .first ordinary fresh
  obtain ⟨tree, settles, snapshot, fixed, left⟩ := start.settleWithin alone enough
  refine ⟨tree, by rw [settle, seeded, settles], ?_, ?_, ?_⟩
  · intro before after world world' seen passes path node reaches
    have goesOn : OrdinarySnapshot engine deeper s before := by
      clear passes reaches
      induction seen with
      | first => rwa [seeded]
      | next _ passes known =>
        rw [known.pass alone] at passes
        cases passes
        exact known.after alone
    rw [goesOn.pass alone] at passes
    cases passes
    exact goesOn.lookup?_after alone reaches
  · intro entry member unresolved
    obtain ⟨place, node, stands, waits, shows⟩ := snapshot.exists_of_entry member unresolved
    obtain ⟨other, blocker, refers, reaches, still⟩ :=
      snapshot.exists_blocker fixed alone stands waits
    obtain ⟨blocking, known, kind, reported⟩ := snapshot.exists_entry fixed alone reaches still
    exact ⟨place, other, ⟨node, stands, shows⟩, refers, blocking, known, kind, reported⟩
  · intro acyclic entry member unresolved
    obtain ⟨place, node, stands, waits, -⟩ := snapshot.exists_of_entry member unresolved
    obtain ⟨place, cycle⟩ := snapshot.exists_cycle fixed alone stands waits
    rcases acyclic with acyclic | acyclic
    · exact acyclic place cycle
    · exact acyclic place (Relation.TransGen.mono (fun _ _ => left.mayReferTo) _ _ cycle)

/-! ### Two fields that refer to each other -/

/-- A document with a cycle of references, with a reference into it, and with a sum. -/
def circularDocument : Node :=
  .ofJson "template" (.object [("a", .string "(( loop.x || 1 ))"),
    ("loop", .object [("x", .string "(( y + 1 ))"), ("y", .string "(( x ))")]),
    ("port", .string "(( 8000 + 80 ))")])

/-- The kinds of what a settled document shows, in the order of its fields. -/
def settledKinds (engine : Engine) (document : Node) : Option (List UnresolvedKind) := do
  let (settled, _) ← settle engine (engine.below 0) { id := ⟨0, []⟩ } document {}
  let tree ← settled
  return (Report.entriesOf engine.defaultKey tree []).map ReportEntry.kind

theorem exists_entry_of_settledKinds {engine : Engine} {document tree : Node}
    {kind : UnresolvedKind} {kinds : List UnresolvedKind}
    (reports : settledKinds engine document = some (kind :: kinds))
    (settles : settle engine (engine.below 0) { id := ⟨0, []⟩ } document = pure (some tree)) :
    ∃ entry ∈ (Report.collect tree engine.defaultKey).entries, entry.kind = kind := by
  rw [settledKinds, settles] at reports
  obtain ⟨entry, member, same⟩ :=
    List.mem_map.mp (Option.some.inj reports ▸ List.mem_cons_self (a := kind) (l := kinds))
  exact ⟨entry, List.mem_mergeSort.mpr member, same⟩

/-- The settled document shows what waits, and the cycle that it waits for. -/
theorem settle_circularDocument : ∃ tree,
    settle Engine.standard (Engine.standard.below 0) { id := ⟨0, []⟩ } circularDocument =
      pure (some tree) ∧
    (∃ entry ∈ (Report.collect tree "name").entries, entry.kind = .unresolved) ∧
    ∃ place, Relation.TransGen (tree.RefersTo "name") place place := by
  have ordinary : circularDocument.Ordinary := Node.ordinary_of_isOrdinary (by decide +kernel)
  obtain ⟨tree, settles, -, -, acyclic⟩ := settle_ordinary Engine.standard (Engine.standard.below 0)
    { id := ⟨0, []⟩ } ⟨rfl, rfl, rfl, rfl⟩ circularDocument ordinary (by decide +kernel)
    (by decide +kernel)
  have waits : ∃ entry ∈ (Report.collect tree "name").entries, entry.kind = .unresolved :=
    exists_entry_of_settledKinds
      (show settledKinds Engine.standard circularDocument =
        some [.unresolved, .unresolved, .unresolved] by decide +kernel) settles
  refine ⟨tree, settles, waits, ?_⟩
  by_contra none
  obtain ⟨entry, member, unresolved⟩ := waits
  exact acyclic (.inl (not_exists.mp none)) entry member unresolved

end Cascade
