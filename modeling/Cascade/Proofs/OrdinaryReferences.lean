import Cascade.Proofs.OrdinaryTree

/-!
# References in ordinary trees

A reference in an ordinary tree has the value at the end of its way, or it is stopped there: by an
expression that waits or failed, by a map with such an expression in it, or by a name that is not
there. When the tree has received outcomes that go on from its diagnostics, the reference has
advanced.

## Main definitions

* `valueAlong`: the value at the end of a path.

## Main statements

* `resolve_advances`: references advance as the tree does.
* `exists_blocker_of_resolve`: a reference that waits is stopped by an expression that waits.
-/

namespace Cascade

variable {defaultKey name : String} {node : Node} {may blocked : Prop}

namespace Advances

variable {α : Type} {grade : Unresolved → UnresolvedKind} {u u' : Unresolved}
  {o : Except Unresolved α}

theorem of_alike (fails : grade u ≠ .unresolved) (alike : grade u' = grade u)
    (same : ¬may → u' = u) : Advances (α := α) grade may blocked (.error u) (.error u') := by
  by_cases changes : may
  · exact .failing changes fails alike
  · rw [same changes]
    exact .same u fun waits => absurd waits fails

theorem of_waiting (waits : grade u = .unresolved) (why : blocked) (same : ¬may → o = .error u) :
    Advances grade may blocked (.error u) o := by
  by_cases changes : may
  · exact .waiting changes waits why o
  · rw [same changes]
    exact .same u fun _ => why

theorem refl (why : blocked) (o : Except Unresolved α) : Advances grade may blocked o o := by
  cases o with
  | ok a => exact .value a
  | error u => exact .same u fun _ => why

end Advances

/-! ### What stops a reference -/

/-- What is said of an expression on the way of a reference. -/
def blockage (name : String) (kind : UnresolvedKind) : Unresolved :=
  if kind = .unresolved then .pendingWith ("'" ++ name ++ "' is unresolved")
  else .pending { Info.ofMessage ("'" ++ name ++ "' depends on an error") with failed := true }

theorem kind_blockage_iff {kind : UnresolvedKind} :
    (blockage name kind).kind = .unresolved ↔ kind = .unresolved := by
  cases kind <;> simp [blockage, Unresolved.kind, Unresolved.isError, Unresolved.info,
    Unresolved.pendingWith, Info.ofMessage]

theorem checkAvailable_of_expr? {e : Expr} (written : node.expr? = some e) :
    checkAvailable name node = .error (blockage name (Report.kindOf node.annotations)) := by
  obtain ⟨value, annotations, source⟩ := node
  have clear : (annotations.hasError || annotations.failed) = false ↔
      Report.kindOf annotations = .unresolved := by
    rw [Report.kindOf]
    cases annotations.hasError <;> cases annotations.failed <;> simp
  unfold checkAvailable blockage
  by_cases waits : Report.kindOf annotations = .unresolved
  · rw [if_pos waits]
    simp only [clear.mpr waits, Bool.false_eq_true, if_false]
    cases value with
    | expression e => rfl
    | string text =>
      have unread : Embedded.isUnread text = true := by
        rw [Embedded.isUnread_iff_classify]
        unfold Node.expr? at written
        dsimp only at written
        split at written
        · next e shape => exact .inl ⟨e, shape⟩
        · cases written
      simp only [unread, if_true]
    | _ => cases written
  · rw [if_neg waits]
    have flagged := (not_congr clear).mpr waits
    rw [Bool.not_eq_false] at flagged
    simp only [flagged, if_true]

/-- The value at the end of a path from a node that was reached through `seen`. -/
def valueAlong (defaultKey name : String) (node : Node) (seen path : List String) :
    Except Unresolved Resolved := do
  nodeValue name (← walkPath defaultKey node seen path) false

theorem valueAlong_of_expr? {e : Expr} {seen path : List String} (written : node.expr? = some e) :
    valueAlong defaultKey name node seen path =
      .error (blockage (if path.isEmpty then name else Path.render seen)
        (Report.kindOf node.annotations)) := by
  cases path with
  | nil =>
    rw [valueAlong, walkPath]
    change nodeValue name node false = _
    rw [nodeValue, checkAvailable_of_expr? written]
    rfl
  | cons segment rest =>
    rw [valueAlong, walkPath, checkAvailable_of_expr? written]
    rfl

/-- What is said of a container whose descendants are not complete. -/
def unfinished (name : String) (failed : Bool) : Unresolved :=
  .pending { Info.ofMessage ("'" ++ name ++ "' is unresolved") with failed }

section

variable {fields : Fields Node} {source : String}

theorem valueAlong_map_nil {seen : List String}
    (waits : (Node.mk (.map fields) {} source).isResolved = false) :
    valueAlong defaultKey name ⟨.map fields, {}, source⟩ seen [] =
      .error (unfinished name (Node.mk (.map fields) {} source).hasError) := by
  rw [valueAlong, walkPath]
  change nodeValue name (Node.mk (.map fields) {} source) false = _
  rw [nodeValue, waits]
  rfl

theorem valueAlong_map_cons {segment : String} {seen rest : List String} :
    valueAlong defaultKey name ⟨.map fields, {}, source⟩ seen (segment :: rest) =
      match Fields.find? fields segment with
      | some child => valueAlong defaultKey name child (seen ++ [segment]) rest
      | none => .error (.ofFailure (.notFound (Path.render (seen ++ [segment]))
          (suggestions segment (Fields.keys fields)))) := by
  rw [valueAlong, walkPath]
  change (match Fields.find? fields segment with
    | some next => walkPath defaultKey next (seen ++ [segment]) rest
    | none => _) >>= _ = _
  cases Fields.find? fields segment <;> rfl

end

/-! ### References while the tree advances -/

section

variable {outcomes : Outcomes} {next : Node} {place : List String}

/-- The value at the end of a path advances as the tree does. -/
theorem valueAlong_advances (ordinary : node.Ordinary) (simple : outcomes.AreSimple)
    (continues : Continues outcomes defaultKey may node place)
    (advances : node.advance outcomes place = some next) (seen path : List String) :
    Advances Unresolved.kind may True (valueAlong defaultKey name node seen path)
      (valueAlong defaultKey name next seen path) := by
  induction ordinary generalizing place next seen path with
  | simple whole =>
    rw [Node.advance_of_isSimple whole] at advances
    cases advances
    exact .refl trivial _
  | @map fields source distinct plain inside ih =>
    have whole : Node.Ordinary ⟨.map fields, {}, source⟩ := .map distinct plain inside
    have goesOn := advances
    rw [Node.advance_map] at goesOn
    cases goesOn
    cases path with
    | nil =>
      cases resolved : (Node.mk (.map fields) {} source).isResolved with
      | true =>
        rw [Node.advance_of_isSimple (whole.isSimple resolved)] at advances
        rw [← Option.some.inj advances]
        exact .refl trivial _
      | false =>
        rw [valueAlong_map_nil resolved]
        cases fails : (Node.mk (.map fields) {} source).hasError with
        | true =>
          have later := whole.hasError_advance simple continues advances fails
          have waits : (Node.mk (.map (advanceFields outcomes fields place)) {} source).isResolved =
              false := by
            rw [← Bool.not_eq_true]
            intro settled
            rw [Node.hasError_of_isResolved settled] at later
            cases later
          rw [valueAlong_map_nil waits, later]
          exact .refl trivial _
        | false =>
          refine .of_waiting rfl trivial fun still => ?_
          have waits := whole.isResolved_advance simple continues advances still resolved
          have healthy : (Node.mk (.map (advanceFields outcomes fields place)) {} source).hasError =
              false := by
            rw [← Bool.not_eq_true] at fails ⊢
            exact mt (whole.hasError_of_advance simple continues advances still) fails
          rw [valueAlong_map_nil waits, healthy]
    | cons segment rest =>
      rw [valueAlong_map_cons, valueAlong_map_cons, find?_advanceFields distinct]
      cases known : Fields.find? fields segment with
      | none =>
        refine .of_alike nofun rfl fun still => ?_
        have names : Fields.keys (advanceFields outcomes fields place) = Fields.keys fields :=
          keys_advanceFields fun field member =>
            (inside field member).isSome_advance simple
              (continues.field (Fields.find?_of_mem distinct member)) still
        rw [names]
      | some child =>
        have ordinary := inside _ (Fields.mem_of_find? known)
        have below := continues.field known
        rw [Option.bind_some]
        cases onward : child.advance outcomes (place ++ [segment]) with
        | some child' => exact ih _ (Fields.mem_of_find? known) below onward _ _
        | none =>
          -- What disappears was an expression that waited.
          obtain ⟨e, r, written, outcome⟩ := ordinary.exists_of_advance_eq_none simple onward
          rcases below [] child e rfl written with ⟨u, fails, -⟩ | ⟨changes, waits⟩
          · rw [List.append_nil, outcome] at fails
            cases fails
          · dsimp only
            rw [valueAlong_of_expr? written]
            exact .waiting changes (kind_blockage_iff.mpr waits) trivial _
  | @expression node e written ordinary clear =>
    rw [valueAlong_of_expr? written]
    rcases continues [] node e rfl written with ⟨u, outcome, alike⟩ | ⟨changes, waits⟩
    · rw [List.append_nil] at outcome
      rw [Node.advance_of_expr? written, outcome] at advances
      cases advances
      rw [valueAlong_of_expr? Node.expr?_stillExpression, kindOf_stillExpression, alike]
      exact .refl trivial _
    · exact .waiting changes (kind_blockage_iff.mpr waits) trivial _

/-! ### Names around a place -/

section

variable {root : Node} {e : Expr}

/-- The nodes around an expression are maps. -/
theorem exists_map_around (ordinary : root.Ordinary)
    (stands : root.lookup? place defaultKey = some node) (written : node.expr? = some e)
    {depth : Nat} (around : depth < place.length) :
    ∃ fields source, root.lookup? (place.take depth) defaultKey = some ⟨.map fields, {}, source⟩ ∧
      (Fields.keys fields).Nodup ∧ ∀ field ∈ fields, field.2.Ordinary := by
  have split : place = place.take depth ++ place[depth] :: place.drop (depth + 1) := by
    rw [← List.drop_eq_getElem_cons, List.take_append_drop]
  rw [split, Node.lookup?, List.foldlM_append, ← Node.lookup?] at stands
  obtain ⟨container, reaches, below⟩ := Option.bind_eq_some_iff.mp stands
  rw [← Node.lookup?] at below
  rw [reaches]
  cases ordinary.lookup? reaches with
  | simple simple =>
    rw [Node.expr?_of_isSimple (Node.isSimple_of_lookup? simple below)] at written
    cases written
  | @map fields source distinct plain inside => exact ⟨fields, source, rfl, distinct, inside⟩
  | expression before ordinary clear =>
    rw [Node.lookup?_cons_of_expr? before] at below
    cases below

variable (ordinary : root.Ordinary) (simple : outcomes.AreSimple)
  (continues : Continues outcomes defaultKey may root [])
  (advances : root.advance outcomes [] = some next)
  (stands : root.lookup? place defaultKey = some node) (written : node.expr? = some e)

include ordinary simple continues advances stands written

/-- The fields around a place advance with the tree. -/
theorem lookup?_around {depth : Nat} (around : depth < place.length) :
    ∃ fields source, (∀ field ∈ fields, field.2.Ordinary) ∧ (Fields.keys fields).Nodup ∧
      Continues outcomes defaultKey may ⟨.map fields, {}, source⟩ (place.take depth) ∧
      root.lookup? (place.take depth) defaultKey = some ⟨.map fields, {}, source⟩ ∧
      next.lookup? (place.take depth) defaultKey =
        some ⟨.map (advanceFields outcomes fields (place.take depth)), {}, source⟩ := by
  obtain ⟨fields, source, reaches, distinct, inside⟩ :=
    exists_map_around ordinary stands written around
  refine ⟨fields, source, inside, distinct, ?_, reaches, ?_⟩
  · exact continues.lookup? reaches
  · rw [ordinary.lookup?_advance simple advances reaches, List.nil_append, Node.advance_map]

/-- If nothing changes, the same names are visible. -/
theorem visibleNames_advance {s : Setting} (noLocals : s.locals = []) (still : ¬may) :
    Reference.visibleNames defaultKey (s.scopeAt next place) =
      Reference.visibleNames defaultKey (s.scopeAt root place) := by
  simp only [Reference.visibleNames, Setting.scopeAt, noLocals, List.flatMap_nil, List.nil_append]
  refine List.flatMap_congr fun depth member => ?_
  obtain ⟨fields, source, inside, distinct, below, reaches, later⟩ := lookup?_around ordinary simple
    continues advances stands written (List.mem_range.mp member)
  rw [reaches, later]
  have names := keys_advanceFields fun field member =>
    (inside field member).isSome_advance simple
      (below.field (Fields.find?_of_mem distinct member)) still
  exact names

/-- The search for a name around a place advances as the tree does. -/
theorem search_advances (name first : String) (rest : List String)
    {names names' : List String} (same : ¬may → names' = names) (depths : List Nat)
    (around : ∀ depth ∈ depths, depth < place.length) :
    Advances Unresolved.kind may True
      (match depths.findSome? fun depth =>
          (root.lookup? (place.take depth) defaultKey).bind (·.field? first) with
        | some node => valueAlong defaultKey name node [first] rest
        | none => .error (.ofFailure (.notFound first (suggestions first names))))
      (match depths.findSome? fun depth =>
          (next.lookup? (place.take depth) defaultKey).bind (·.field? first) with
        | some node => valueAlong defaultKey name node [first] rest
        | none => .error (.ofFailure (.notFound first (suggestions first names')))) := by
  induction depths with
  | nil => exact .of_alike nofun rfl fun still => by rw [same still]
  | cons depth depths ih =>
    obtain ⟨here, others⟩ := List.forall_mem_cons.mp around
    obtain ⟨fields, source, inside, distinct, below, reaches, later⟩ :=
      lookup?_around ordinary simple continues advances stands written here
    rw [List.findSome?_cons, List.findSome?_cons, reaches, later, Option.bind_some,
      Option.bind_some, Node.field?_map, Node.field?_map, find?_advanceFields distinct]
    cases known : Fields.find? fields first with
    | none => exact ih others
    | some child =>
      have ordinary := inside _ (Fields.mem_of_find? known)
      rw [Option.bind_some]
      cases onward : child.advance outcomes (place.take depth ++ [first]) with
      | some child' => exact valueAlong_advances ordinary simple (below.field known) onward _ _
      | none =>
        obtain ⟨e, r, written, outcome⟩ := ordinary.exists_of_advance_eq_none simple onward
        rcases below.field known [] child e rfl written with ⟨u, fails, -⟩ | ⟨changes, waits⟩
        · rw [List.append_nil, outcome] at fails
          cases fails
        · dsimp only
          rw [valueAlong_of_expr? written]
          exact .waiting changes (kind_blockage_iff.mpr waits) trivial _

/-- A reference advances as the tree does. -/
theorem resolve_advances {s : Setting} {r : Reference} (untagged : r.tag = none)
    (noLocals : s.locals = []) (outermost : s.outer = none) :
    Advances Unresolved.kind may True (r.resolve (s.scopeAt root place) defaultKey false)
      (r.resolve (s.scopeAt next place) defaultKey false) := by
  unfold Reference.resolve
  cases absolute : r.absolute with
  | true =>
    rw [find_absolute untagged absolute outermost, find_absolute untagged absolute outermost]
    exact valueAlong_advances ordinary simple continues advances [] r.path
  | false =>
    cases path : r.path with
    | nil =>
      have nowhere {tree : Node} : r.find (s.scopeAt tree place) defaultKey =
          .error (.ofFailure (.custom "empty reference")) := by
        rw [Reference.find, untagged]
        simp only [absolute, Bool.false_eq_true, if_false, path, Reference.findRelative]
      rw [nowhere, nowhere]
      exact .refl trivial _
    | cons first rest =>
      rw [find_relative untagged absolute path noLocals outermost,
        find_relative untagged absolute path noLocals outermost]
      have names (still : ¬may) :=
        visibleNames_advance ordinary simple continues advances stands written noLocals still
      have searched := search_advances ordinary simple continues advances stands written r.render
        first rest names (List.range place.length).reverse (by simp)
      unfold Reference.findEnclosing?
      revert searched
      cases (List.range place.length).reverse.findSome? fun depth =>
        (root.lookup? (place.take depth) defaultKey).bind (·.field? first) <;>
      cases (List.range place.length).reverse.findSome? fun depth =>
        (next.lookup? (place.take depth) defaultKey).bind (·.field? first) <;>
      exact id

end

end

/-! ### What a waiting reference waits for -/

/-- The node is an expression that waits: it has no value, did not fail and does not depend on a
failure. -/
def Node.waits (node : Node) : Bool :=
  node.expr?.isSome && decide (Report.kindOf node.annotations = .unresolved)

theorem Node.waits_iff : node.waits = true ↔
    (∃ e, node.expr? = some e) ∧ Report.kindOf node.annotations = .unresolved := by
  rw [waits, Bool.and_eq_true, Option.isSome_iff_exists, decide_eq_true_iff]

theorem Node.waits_of_expr? {e : Expr} (written : node.expr? = some e) :
    node.waits = decide (Report.kindOf node.annotations = .unresolved) := by
  rw [waits, written]
  rfl

/-- Nothing in a simple value waits. -/
theorem kind_of_valueAlong_isSimple {seen path : List String} {u : Unresolved}
    (simple : node.isSimple = true)
    (stops : valueAlong defaultKey name node seen path = .error u) : u.kind = .localError := by
  induction path generalizing node seen with
  | nil =>
    rw [valueAlong, walkPath] at stops
    change nodeValue name node false = _ at stops
    rw [nodeValue_of_isSimple simple] at stops
    cases stops
  | cons segment rest ih =>
    have resolved := Node.isResolved_of_isSimple simple
    rw [valueAlong, walkPath, checkAvailable_of_resolved resolved] at stops
    cases step : node.step? segment defaultKey with
    | none =>
      simp only [step] at stops
      cases stops
      rfl
    | some next =>
      simp only [step] at stops
      exact ih (Node.isSimple_of_stepBy? simple step) stops

/-- A path without a value yet is stopped by an expression that waits, on the path or below its
end. -/
theorem exists_blocker_of_valueAlong {seen path : List String} {u : Unresolved}
    (ordinary : node.Ordinary) (stops : valueAlong defaultKey name node seen path = .error u)
    (waits : u.kind = .unresolved) :
    ∃ q found, (q <+: path ∨ path <+: q) ∧ node.lookup? q defaultKey = some found ∧
      found.waits = true := by
  induction ordinary generalizing seen path with
  | simple simple =>
    rw [kind_of_valueAlong_isSimple simple stops] at waits
    cases waits
  | @map fields source distinct plain inside ih =>
    have whole : Node.Ordinary ⟨.map fields, {}, source⟩ := .map distinct plain inside
    cases path with
    | nil =>
      cases resolved : (Node.mk (.map fields) {} source).isResolved with
      | true =>
        rw [kind_of_valueAlong_isSimple (whole.isSimple resolved) stops] at waits
        cases waits
      | false =>
        rw [valueAlong_map_nil resolved] at stops
        obtain ⟨q, found, e, reaches, written⟩ :=
          (whole.isResolved_eq_false_iff defaultKey).mp resolved
        refine ⟨q, found, .inr (List.nil_prefix), reaches, Node.waits_iff.mpr ⟨⟨e, written⟩, ?_⟩⟩
        by_contra flagged
        have fails := (whole.hasError_iff defaultKey).mpr ⟨q, found, e, reaches, written, flagged⟩
        rw [fails] at stops
        cases stops
        cases waits
    | cons segment rest =>
      rw [valueAlong_map_cons] at stops
      cases known : Fields.find? fields segment with
      | none =>
        simp only [known] at stops
        cases stops
        cases waits
      | some child =>
        simp only [known] at stops
        obtain ⟨q, found, near, reaches, still⟩ := ih _ (Fields.mem_of_find? known) stops
        refine ⟨segment :: q, found, ?_, ?_, still⟩
        · simpa only [List.prefix_cons_inj] using near
        · rw [Node.lookup?_map_cons, known]
          exact reaches
  | @expression node e written ordinary clear =>
    rw [valueAlong_of_expr? written] at stops
    cases stops
    exact ⟨[], node, .inl List.nil_prefix, rfl,
      Node.waits_iff.mpr ⟨⟨e, written⟩, kind_blockage_iff.mp waits⟩⟩

/-- A reference without a value yet is stopped by an expression that waits: one that it walks
through, or one in the tree that it walks to. -/
theorem exists_blocker_of_resolve {root : Node} {place : List String} {s : Setting} {r : Reference}
    {u : Unresolved} (ordinary : root.Ordinary) (untagged : r.tag = none)
    (noLocals : s.locals = []) (outermost : s.outer = none)
    (stops : r.resolve (s.scopeAt root place) defaultKey false = .error u)
    (waits : u.kind = .unresolved) :
    ∃ way q found, r.way? defaultKey root place = some way ∧ (q <+: way ∨ way <+: q) ∧
      root.lookup? q defaultKey = some found ∧ found.waits = true := by
  unfold Reference.resolve at stops
  unfold Reference.way?
  cases absolute : r.absolute with
  | true =>
    rw [find_absolute untagged absolute outermost] at stops
    obtain ⟨q, found, near, reaches, still⟩ := exists_blocker_of_valueAlong ordinary stops waits
    exact ⟨r.path, q, found, rfl, near, reaches, still⟩
  | false =>
    cases path : r.path with
    | nil =>
      rw [Reference.find, untagged] at stops
      simp only [absolute, Bool.false_eq_true, if_false, path, Reference.findRelative] at stops
      cases stops
      cases waits
    | cons first rest =>
      rw [find_relative untagged absolute path noLocals outermost, findEnclosing?_eq] at stops
      simp only [Bool.false_eq_true, if_false]
      cases innermost : (List.range place.length).reverse.find?
          (hasNameAt defaultKey root place first) with
      | none =>
        rw [innermost] at stops
        cases stops
        cases waits
      | some depth =>
        have named := List.find?_some innermost
        obtain ⟨child, field⟩ := Option.isSome_iff_exists.mp named
        rw [innermost, Option.bind_some, field] at stops
        obtain ⟨container, reaches, known⟩ := Option.bind_eq_some_iff.mp field
        have below {q : List String} :
            root.lookup? (place.take depth ++ first :: q) defaultKey =
              child.lookup? q defaultKey := by
          rw [Node.lookup?, List.foldlM_append, ← Node.lookup?, reaches]
          change container.lookup? (first :: q) defaultKey = _
          rw [Node.lookup?_cons, Node.step?_of_field? known, Option.bind_some]
        have inside := ordinary.lookup? ((below (q := [])).trans rfl)
        obtain ⟨q, found, near, finds, still⟩ := exists_blocker_of_valueAlong inside stops waits
        refine ⟨_, place.take depth ++ first :: q, found, rfl, ?_, below.trans finds, still⟩
        simpa only [List.prefix_append_right_inj, List.prefix_cons_inj] using near

end Cascade
