import Cascade.Proofs.PlainCascade
import Cascade.Proofs.Unread
import Cascade.Proofs.Visits

/-!
# References in the final tree

A reference is evaluated once, over the snapshot of some pass, and the trees of later passes may look
different. This module says when its value is still the one that the final tree has at the place
that it means: the containers around it and on its way keep their shape from pass to pass, and
neither a control nor a stub changes what it found.

## Main definitions

* `Reference.way?`: the path from the root that a reference means at a place.
* `isUndisturbed`: a pass disturbs neither the place of a reference nor its way.
* `settlesUndisturbed`: no pass of a run does.

## Main statements

* `agrees_of_pass`: what one pass preserves.
* `cascade_reference`: references of a cascade agree with the final tree.
-/

namespace Cascade

/-! ### Paths that are walked -/

theorem walkPath_cons {defaultKey segment : String} {node last : Node} {seen rest : List String}
    (walks : walkPath defaultKey node seen (segment :: rest) = .ok last) :
    ∃ next, node.step? segment defaultKey = some next ∧
      walkPath defaultKey next (seen ++ [segment]) rest = .ok last := by
  rw [walkPath] at walks
  cases available : checkAvailable (Path.render seen) node with
  | error u =>
    rw [available] at walks
    cases walks
  | ok _ =>
    rw [available] at walks
    cases found : node.step? segment defaultKey with
    | none =>
      rw [found] at walks
      cases walks
    | some next =>
      rw [found] at walks
      exact ⟨next, rfl, walks⟩

/-- How a node was reached only shows in messages. -/
theorem checkAvailable_ok {name other : String} {node : Node}
    (available : checkAvailable name node = .ok ()) : checkAvailable other node = .ok () := by
  unfold checkAvailable at available ⊢
  split at available
  · cases available
  · next healthy =>
    rw [if_neg healthy]
    split at available
    · cases available
    · split at available
      · cases available
      · next text _ read => simp [read]
    · rfl

theorem walkPath_seen {defaultKey : String} {node last : Node} {seen other path : List String}
    (walks : walkPath defaultKey node seen path = .ok last) :
    walkPath defaultKey node other path = .ok last := by
  induction path generalizing node seen other with
  | nil => exact walks
  | cons segment rest ih =>
    rw [walkPath] at walks ⊢
    cases available : checkAvailable (Path.render seen) node with
    | error u =>
      rw [available] at walks
      cases walks
    | ok _ =>
      rw [available] at walks
      rw [checkAvailable_ok available]
      cases found : node.step? segment defaultKey with
      | none =>
        rw [found] at walks
        cases walks
      | some next =>
        rw [found] at walks
        exact ih walks

theorem lookup_of_walkPath {defaultKey : String} {node last : Node} {seen path : List String}
    (walks : walkPath defaultKey node seen path = .ok last) :
    node.lookup? path defaultKey = some last := by
  induction path generalizing node seen with
  | nil =>
    cases walks
    rfl
  | cons segment rest ih =>
    obtain ⟨next, found, onward⟩ := walkPath_cons walks
    rw [Node.lookup?_cons, found]
    exact ih onward

theorem walkPath_append {defaultKey : String} {node last : Node} {seen path rest : List String}
    (walks : walkPath defaultKey node seen (path ++ rest) = .ok last) :
    ∃ middle, node.lookup? path defaultKey = some middle ∧
      walkPath defaultKey middle (seen ++ path) rest = .ok last := by
  induction path generalizing node seen with
  | nil => exact ⟨node, rfl, by rw [List.append_nil]; exact walks⟩
  | cons segment path ih =>
    obtain ⟨next, found, onward⟩ := walkPath_cons walks
    obtain ⟨middle, reached, later⟩ := ih onward
    refine ⟨middle, ?_, ?_⟩
    · rw [Node.lookup?_cons, found]
      exact reached
    · rw [List.append_assoc] at later
      exact later

/-! ### Ways of references -/

/-- The maps around a place, from the root on, have a field of the name at some depth. -/
def hasNameAt (defaultKey : String) (root : Node) (place : List String) (name : String)
    (depth : Nat) : Bool :=
  ((root.lookup? (place.take depth) defaultKey).bind (·.field? name)).isSome

/-- The path from the root that an untagged reference means at a place. -/
def Reference.way? (r : Reference) (defaultKey : String) (root : Node) (place : List String) :
    Option (List String) :=
  if r.absolute then some r.path
  else
    match r.path with
    | [] => none
    | first :: _ =>
      ((List.range place.length).reverse.find? (hasNameAt defaultKey root place first)).map
        fun depth => place.take depth ++ r.path

/-- The scope of a place in a document. -/
def Setting.scopeAt (s : Setting) (root : Node) (place : List String) : Scope :=
  ⟨⟨s.id, root, s.stubs, s.state⟩, s.locals, place, s.outer⟩

section

variable {defaultKey : String} {root found : Node} {place : List String}

/-- The innermost map that has a field of a name has it at the depth that the search finds. -/
theorem findEnclosing?_eq {name : String} :
    Reference.findEnclosing? defaultKey root place name =
      ((List.range place.length).reverse.find? (hasNameAt defaultKey root place name)).bind
        fun depth => (root.lookup? (place.take depth) defaultKey).bind (·.field? name) := by
  unfold Reference.findEnclosing?
  induction (List.range place.length).reverse with
  | nil => rfl
  | cons depth rest ih =>
    rw [List.findSome?_cons, List.find?_cons]
    cases field : (root.lookup? (place.take depth) defaultKey).bind (·.field? name) with
    | none =>
      rw [hasNameAt, field]
      exact ih
    | some child =>
      rw [hasNameAt, field, Option.isSome_some]
      simp only [Option.bind_some, field]

theorem Node.step?_of_field? {node child : Node} {key : String} (field : node.field? key = some child) :
    node.step? key defaultKey = some child := by
  obtain ⟨value, annotations, source⟩ := node
  cases value with
  | map fields => exact field
  | _ => cases field

variable {r : Reference} {s : Setting}

/-- In an outermost document, a relative reference starts at the innermost map that has its first
name. -/
theorem find_relative {first : String} {rest : List String} (untagged : r.tag = none)
    (relative : r.absolute = false) (path : r.path = first :: rest) (noLocals : s.locals = [])
    (outermost : s.outer = none) :
    r.find (s.scopeAt root place) defaultKey =
      match Reference.findEnclosing? defaultKey root place first with
      | some node => walkPath defaultKey node [first] rest
      | none => .error (.ofFailure (.notFound first
          (suggestions first (Reference.visibleNames defaultKey (s.scopeAt root place))))) := by
  have noName : ∀ name, Scope.findLocal? s.locals name = none := by
    intro name
    rw [noLocals]
    rfl
  rw [Reference.find, untagged]
  simp only [relative, Bool.false_eq_true, if_false]
  rw [path, Reference.findRelative, Setting.scopeAt, outermost, Reference.search, noName, ite_self]
  cases Reference.findEnclosing? defaultKey root place first <;> simp only [noName]

theorem find_relative_iff {first : String} {rest : List String} (untagged : r.tag = none)
    (relative : r.absolute = false) (path : r.path = first :: rest) (noLocals : s.locals = [])
    (outermost : s.outer = none) :
    r.find (s.scopeAt root place) defaultKey = .ok found ↔
      ∃ node, Reference.findEnclosing? defaultKey root place first = some node ∧
        walkPath defaultKey node [first] rest = .ok found := by
  rw [find_relative untagged relative path noLocals outermost]
  cases Reference.findEnclosing? defaultKey root place first <;> simp

/-- An absolute reference starts at the root of an outermost document. -/
theorem find_absolute (untagged : r.tag = none) (absolute : r.absolute = true)
    (outermost : s.outer = none) :
    r.find (s.scopeAt root place) defaultKey = walkPath defaultKey root [] r.path := by
  have top : (s.scopeAt root place).rootScope = s.scopeAt root place := by
    rw [Setting.scopeAt, outermost, Scope.rootScope]
    simp
  rw [Reference.find, untagged]
  simp only [absolute, if_true, top]
  rfl

/-- What a reference finds stands at the end of its way. -/
theorem lookup_of_find (untagged : r.tag = none) (noLocals : s.locals = []) (outermost : s.outer = none)
    (finds : r.find (s.scopeAt root place) defaultKey = .ok found) :
    ∃ way, r.way? defaultKey root place = some way ∧
      root.lookup? way defaultKey = some found := by
  unfold Reference.way?
  by_cases absolute : r.absolute = true
  · rw [find_absolute untagged absolute outermost] at finds
    rw [if_pos absolute]
    exact ⟨r.path, rfl, lookup_of_walkPath finds⟩
  · rw [if_neg absolute]
    have relative : r.absolute = false := by simpa using absolute
    cases path : r.path with
    | nil =>
      rw [Reference.find, untagged] at finds
      simp only [relative, Bool.false_eq_true, if_false, path, Reference.findRelative] at finds
      cases finds
    | cons first rest =>
      obtain ⟨node, encloses, walks⟩ :=
        (find_relative_iff untagged relative path noLocals outermost).mp finds
      rw [findEnclosing?_eq] at encloses
      obtain ⟨depth, innermost, field⟩ := Option.bind_eq_some_iff.mp encloses
      obtain ⟨container, reached, named⟩ := Option.bind_eq_some_iff.mp field
      refine ⟨place.take depth ++ first :: rest, by simp only [innermost, Option.map_some], ?_⟩
      rw [Node.lookup?_append, reached, Option.bind_some, Node.lookup?_cons,
        Node.step?_of_field? named]
      exact lookup_of_walkPath walks

/-- What a reference walks to along its way is what it finds. -/
theorem find_of_walkPath {way : List String} (untagged : r.tag = none) (noLocals : s.locals = [])
    (outermost : s.outer = none) (means : r.way? defaultKey root place = some way)
    (walks : walkPath defaultKey root [] way = .ok found) :
    r.find (s.scopeAt root place) defaultKey = .ok found := by
  unfold Reference.way? at means
  by_cases absolute : r.absolute = true
  · rw [if_pos absolute] at means
    cases means
    rw [find_absolute untagged absolute outermost, walks]
  · rw [if_neg absolute] at means
    have relative : r.absolute = false := by simpa using absolute
    cases path : r.path with
    | nil =>
      rw [path] at means
      cases means
    | cons first rest =>
      rw [path] at means
      obtain ⟨depth, innermost, rfl⟩ := Option.map_eq_some_iff.mp means
      rw [find_relative_iff untagged relative path noLocals outermost, findEnclosing?_eq, innermost,
        Option.bind_some]
      obtain ⟨container, reached, onward⟩ := walkPath_append walks
      obtain ⟨child, stepped, later⟩ := walkPath_cons onward
      have named := List.find?_some innermost
      rw [hasNameAt, reached, Option.bind_some] at named
      obtain ⟨field, isField⟩ := Option.isSome_iff_exists.mp named
      have same : field = child :=
        Option.some.inj ((Node.step?_of_field? isField).symm.trans stepped)
      refine ⟨child, ?_, walkPath_seen later⟩
      rw [reached, Option.bind_some, isField, same]

end

/-! ### Undisturbed passes -/

section

variable (engine : Engine) (s : Setting) (r : Reference) (place : List String)

/-- The visit of a node at a path, if the containers around it keep their shape in a pass. -/
def visit? (before after : Node) (path : List String) : Option Visit :=
  (Visit.mk before (s.rootBinding before) s.overridable).follow? engine.defaultKey (some after) path

/-- The visited node is changed neither by a control nor by a stub. -/
def Visit.isCalm (v : Visit) : Bool :=
  Cascade.isCalm engine.defaultKey v.node v.binding v.overridable

/-- Between two snapshots, no map around a place gains a field of a name. -/
def gainsName (before after : Node) (name : String) : Bool :=
  (List.range place.length).any fun depth =>
    !hasNameAt engine.defaultKey before place name depth &&
      hasNameAt engine.defaultKey after place name depth

/-- A pass disturbs neither the place of a reference nor its way. The containers around the place
keep their shape, and if it is relative, none of them gains a field of its first name. If the
reference resolves, the containers on its way keep their shape too. Neither a control nor a stub
changes the node at the place and the node that the reference means. -/
def isUndisturbed (before after : Node) : Bool :=
  ((visit? engine s before after place).any fun v =>
    v.binding.scope.anchor == place && v.isCalm engine) &&
  (r.absolute || r.path.head?.all fun name => !gainsName engine place before after name) &&
  (!(r.resolve (s.scopeAt before place) engine.defaultKey false).isOk ||
    ((r.way? engine.defaultKey before place).bind (visit? engine s before after)).any
      (Visit.isCalm engine))

/-- The place holds the reference still, or the value that it has in this snapshot. -/
def Agrees (root : Node) : Prop :=
  ∃ node, root.lookup? place engine.defaultKey = some node ∧
    (node.expr? = some (.reference r) ∨
      node.isResolved = true ∧
        r.resolve (s.scopeAt root place) engine.defaultKey false = .ok (.ofValue node.value))

end

section

variable {engine : Engine} {deeper : Deeper} {s : Setting} {r : Reference} {place : List String}
  {before after : Node} {world world' : World}

theorem checkAvailable_of_resolved {name : String} {node : Node} (resolved : node.isResolved = true) :
    checkAvailable name node = .ok () := by
  obtain ⟨clear, whole⟩ := Node.isResolved_iff.mp resolved
  have healthy : (node.annotations.hasError || node.annotations.failed) = false := by
    rw [← clear]
    rfl
  unfold checkAvailable
  rw [healthy, if_neg Bool.false_ne_true]
  obtain ⟨value, annotations, source⟩ := node
  cases value with
  | expression e => cases whole
  | string text =>
    rw [Node.valueResolved, Bool.not_eq_true'] at whole
    simp [whole]
  | _ => rfl

/-- A resolved node has its value. -/
theorem nodeValue_of_isResolved {name : String} {node : Node} (resolved : node.isResolved = true) :
    nodeValue name node false = .ok (.ofValue node.value) := by
  rw [nodeValue, checkAvailable_of_resolved resolved, resolved]
  rfl

/-- A reference resolves to what it finds, once that is resolved. -/
theorem resolve_eq_ok_iff {scope : Scope} {resolved : Resolved} {defaultKey : String} :
    r.resolve scope defaultKey false = .ok resolved ↔
      ∃ node, r.find scope defaultKey = .ok node ∧ node.isResolved = true ∧
        resolved = .ofValue node.value := by
  unfold Reference.resolve
  cases finds : r.find scope defaultKey with
  | error u => simp [bind, Except.bind]
  | ok node =>
    by_cases whole : node.isResolved = true
    · have value : nodeValue r.render node false = .ok (.ofValue node.value) :=
        nodeValue_of_isResolved whole
      constructor
      · intro resolves
        exact ⟨node, rfl, whole, (Except.ok.inj (value.symm.trans resolves)).symm⟩
      · rintro ⟨_, ⟨⟩, -, rfl⟩
        exact value
    · constructor
      · intro resolves
        change nodeValue r.render node false = _ at resolves
        rw [nodeValue] at resolves
        cases available : checkAvailable r.render node with
        | error u =>
          rw [available] at resolves
          cases resolves
        | ok _ =>
          rw [available] at resolves
          simp [whole, bind, Except.bind] at resolves
      · rintro ⟨_, ⟨⟩, resolved, -⟩
        exact absurd resolved whole

/-- The nodes of a document are flowed at the visits of their paths. -/
theorem flow_of_visit {path : List String} {v : Visit} (noState : s.state = none)
    (flowed : pass engine deeper s before world = some (after, world'))
    (way : visit? engine s before after path = some v) :
    ∃ fuel overridable start stop result, (overridable = true → v.overridable = true) ∧
      flowNode engine deeper fuel v.node v.binding overridable start = some (result, stop) ∧
      ∀ c, result = some c → ∀ seen, walkPath engine.defaultKey after seen path = .ok c := by
  obtain ⟨result, middle, flows, made⟩ := Run.eq_of_bind flowed
  cases made
  cases path with
  | nil =>
    cases way
    refine ⟨_, _, world, world', result, id, flows, ?_⟩
    rintro c rfl seen
    rfl
  | cons segment rest =>
    -- The root is a container whose shape is closed, so the pass does not remove it.
    obtain ⟨child, down, -⟩ := Option.bind_eq_some_iff.mp way
    obtain ⟨later, rfl, -⟩ := Visit.flow_of_child down noState id flows
    obtain ⟨fuel, overridable, start, stop, final, narrower, below, leads⟩ :=
      Visit.flow_of_follow way noState id flows
    refine ⟨fuel, overridable, start, stop, final, narrower, below, ?_⟩
    intro c yielded
    obtain ⟨_, ⟨⟩, walks⟩ := leads c yielded
    exact walks

/-- Expressions are overridden by no more than other leaves are. -/
theorem expressionOverride?_eq_none {node written : Node} {e : Expr} {b : Binding} {defaultKey : String}
    (same : node.annotations = written.annotations)
    (kept : stubOverride? defaultKey written b = none) :
    expressionOverride? defaultKey node e b = none := by
  unfold stubOverride? at kept
  unfold expressionOverride?
  rw [same]
  split at kept
  · next blocked => simp [blocked]
  · rw [Option.map_eq_none_iff] at kept
    rw [kept]
    exact ite_self none

/-- A reference that no stub overrides stays an expression, or becomes the value that it has in the
snapshot. -/
theorem flowExpression_of_reference {node : Node} {b : Binding} {overridable : Bool}
    {result : Option Node} (kept : overridable = true →
      expressionOverride? engine.defaultKey node (.reference r) b = none)
    (flows : flowExpression engine deeper node (.reference r) b overridable world =
      some (result, world')) :
    ∃ c, result = some c ∧ (c.value = .expression (.reference r) ∨ c.isResolved = true ∧
      r.resolve b.scope engine.defaultKey false = .ok (.ofValue c.value)) := by
  have whole : (if overridable then
      expressionOverride? engine.defaultKey node (.reference r) b else none) = none := by
    split
    · next asked => exact kept asked
    · rfl
  have noMarkers : Expr.staticInfo (.reference r) = {} := rfl
  simp only [flowExpression, whole, expressionState?, noMarkers, Bool.false_eq_true, if_false] at flows
  obtain ⟨outcome, middle, yields, made⟩ := Run.eq_of_bind flows
  rw [outcomeOf, evaluate] at yields
  have resolves : r.resolve b.scope engine.defaultKey false = outcome := by
    cases yields
    rfl
  cases outcome with
  | error u =>
    cases made
    exact ⟨_, rfl, .inl rfl⟩
  | ok resolved =>
    cases made
    obtain ⟨found, -, complete, rfl⟩ := resolve_eq_ok_iff.mp resolves
    refine ⟨_, rfl, .inr ⟨Node.isResolved_iff.mpr ⟨?_, (Node.isResolved_iff.mp complete).2⟩, resolves⟩⟩
    simp [Info.annotate, Resolved.ofValue, Annotations.clearIssue]

theorem flowNode_of_reference {v : Visit} {fuel : Nat} {overridable : Bool} {result : Option Node}
    (written : v.node.expr? = some (.reference r))
    (still : v.isCalm engine = true) (within : overridable = true → v.overridable = true)
    (flows : flowNode engine deeper fuel v.node v.binding overridable world =
      some (result, world')) :
    ∃ c, result = some c ∧ (c.value = .expression (.reference r) ∨ c.isResolved = true ∧
      r.resolve v.binding.scope engine.defaultKey false = .ok (.ofValue c.value)) := by
  obtain ⟨⟨value, annotations, source⟩, b, allowed⟩ := v
  cases fuel with
  | zero => cases flows
  | succ fuel =>
    rw [flowNode] at flows
    cases value with
    | expression e =>
      cases written
      refine flowExpression_of_reference (fun asked => ?_) flows
      have permitted : allowed = true := within asked
      have kept : stubOverride? engine.defaultKey ⟨.expression (.reference r), annotations, source⟩ b =
          none := by
        simpa [Visit.isCalm, Cascade.isCalm, permitted] using still
      exact expressionOverride?_eq_none rfl kept
    | string text =>
      have reads : Embedded.classify text = .expression (.reference r) := by
        unfold Node.expr? at written
        simp only at written
        split at written
        · next reads =>
          cases written
          exact reads
        · cases written
      simp only [flowString, reads] at flows
      refine flowExpression_of_reference (fun asked => ?_) flows
      have permitted : allowed = true := within asked
      have kept : stubOverride? engine.defaultKey ⟨.string text, annotations, source⟩ b = none := by
        simpa [Visit.isCalm, Cascade.isCalm, permitted] using still
      exact expressionOverride?_eq_none rfl kept
    | _ => cases written

/-- Along a way that keeps its shape, a name is found at the depth at which it was found. -/
theorem hasNameAt_of_visit {rest : List String} {name : String} {v : Visit} {c : Node}
    {depth : Nat} (named : hasNameAt engine.defaultKey before place name depth = true)
    (way : visit? engine s before after (place.take depth ++ name :: rest) = some v)
    (walks : walkPath engine.defaultKey after [] (place.take depth ++ name :: rest) = .ok c) :
    hasNameAt engine.defaultKey after place name depth = true := by
  obtain ⟨container, toContainer, onward⟩ := Visit.follow_append way
  obtain ⟨later, reached, further⟩ := walkPath_append walks
  obtain ⟨child, stepped, -⟩ := walkPath_cons further
  obtain ⟨_, -, shaped⟩ := Option.bind_eq_some_iff.mp onward
  rw [Option.bind_some, reached] at shaped
  obtain ⟨_, ⟨⟩, shaped⟩ := Option.bind_eq_some_iff.mp shaped
  rw [hasNameAt, Visit.lookup_of_follow toContainer, Option.bind_some] at named
  rw [hasNameAt, reached, Option.bind_some]
  split at shaped
  · next shape =>
    unfold keepsShape at shape
    unfold Node.field? at named
    unfold Node.field?
    unfold Node.step? Node.stepBy? at stepped
    split at shape
    · next fields fields' shapeBefore shapeAfter =>
      rw [shapeAfter] at stepped ⊢
      simp only at stepped ⊢
      rw [stepped]
      rfl
    · next items items' shapeBefore shapeAfter =>
      rw [shapeBefore] at named
      cases named
    · cases shape
  · cases shaped

/-- If no map around the place gains a field of a name, the innermost one that has it is still the
innermost one, as long as the way on from there keeps its shape. -/
theorem innermost_of_visit {rest : List String} {name : String} {v : Visit} {c : Node} {depth : Nat}
    (innermost : (List.range place.length).reverse.find?
      (hasNameAt engine.defaultKey before place name) = some depth)
    (unshadowed : gainsName engine place before after name = false)
    (visits : visit? engine s before after (place.take depth ++ name :: rest) = some v)
    (walks : walkPath engine.defaultKey after [] (place.take depth ++ name :: rest) = .ok c) :
    (List.range place.length).reverse.find? (hasNameAt engine.defaultKey after place name) =
      some depth := by
  have gains : ∀ depth, depth < place.length →
      hasNameAt engine.defaultKey before place name depth = false →
      hasNameAt engine.defaultKey after place name depth = false := by
    simpa [gainsName] using unshadowed
  obtain ⟨named, deeper_, outer, split_, without⟩ := List.find?_eq_some_iff_append.mp innermost
  refine List.find?_eq_some_iff_append.mpr
    ⟨hasNameAt_of_visit named visits walks, deeper_, outer, split_, ?_⟩
  intro other member
  have known : other < place.length := by
    rw [← List.mem_range, ← List.mem_reverse, split_]
    exact List.mem_append_left _ member
  rw [gains other known (by simpa using without other member)]
  rfl

/-- A way that keeps its shape stays the way of the reference, unless a map around the place gains a
field of its first name. -/
theorem way_of_walkPath {way : List String} {v : Visit} {c : Node}
    (means : r.way? engine.defaultKey before place = some way)
    (unshadowed : (r.absolute ||
      r.path.head?.all fun name => !gainsName engine place before after name) = true)
    (visits : visit? engine s before after way = some v)
    (walks : walkPath engine.defaultKey after [] way = .ok c) :
    r.way? engine.defaultKey after place = some way := by
  unfold Reference.way? at means ⊢
  by_cases absolute : r.absolute = true
  · rw [if_pos absolute] at means ⊢
    exact means
  · rw [if_neg absolute] at means ⊢
    cases path : r.path with
    | nil =>
      rw [path] at means
      cases means
    | cons first rest =>
      rw [path] at means
      obtain ⟨depth, innermost, rfl⟩ := Option.map_eq_some_iff.mp means
      have stays : gainsName engine place before after first = false := by
        simpa [absolute, path] using unshadowed
      simp only [innermost_of_visit innermost stays visits walks, Option.map_some]

/-- Along a way that keeps its shape, a reference finds what the pass makes of what it found. -/
theorem find_of_visit {node : Node} {v : Visit} (untagged : r.tag = none) (noLocals : s.locals = [])
    (outermost : s.outer = none) (noState : s.state = none)
    (flowed : pass engine deeper s before world = some (after, world'))
    (unshadowed : (r.absolute ||
      r.path.head?.all fun name => !gainsName engine place before after name) = true)
    (visits : (r.way? engine.defaultKey before place).bind (visit? engine s before after) = some v)
    (finds : r.find (s.scopeAt before place) engine.defaultKey = .ok node) :
    v.node = node ∧ v.binding.document.stubs = s.stubs ∧ v.binding.document.state = none ∧
      ∃ fuel overridable start stop result, (overridable = true → v.overridable = true) ∧
        flowNode engine deeper fuel v.node v.binding overridable start = some (result, stop) ∧
        ∀ c, result = some c → r.find (s.scopeAt after place) engine.defaultKey = .ok c := by
  obtain ⟨way, means, reached⟩ := lookup_of_find untagged noLocals outermost finds
  rw [means, Option.bind_some] at visits
  obtain ⟨fuel, overridable, start, stop, result, narrower, below, leads⟩ :=
    flow_of_visit noState flowed visits
  obtain ⟨names, scope⟩ := Visit.scope_of_follow visits
  refine ⟨Option.some.inj ((Visit.lookup_of_follow visits).symm.trans reached),
    by rw [Binding.document, scope]; rfl, by rw [Binding.document, scope]; exact noState,
    fuel, overridable, start, stop, result, narrower, below, fun c yielded => ?_⟩
  have walks := leads c yielded []
  exact find_of_walkPath untagged noLocals outermost
    (way_of_walkPath means unshadowed visits walks) walks

variable (untagged : r.tag = none) (noLocals : s.locals = []) (outermost : s.outer = none)
  (noState : s.state = none)
  (flowed : pass engine deeper s before world = some (after, world'))
  (calm : isUndisturbed engine s r place before after = true)

include untagged noLocals outermost noState flowed calm

/-- What a reference resolves to is what it resolves to after a pass that does not disturb it. -/
theorem resolve_of_undisturbed {resolved : Resolved}
    (resolves : r.resolve (s.scopeAt before place) engine.defaultKey false = .ok resolved) :
    r.resolve (s.scopeAt after place) engine.defaultKey false = .ok resolved := by
  obtain ⟨node, finds, whole, rfl⟩ := resolve_eq_ok_iff.mp resolves
  simp only [isUndisturbed, Bool.and_eq_true] at calm
  obtain ⟨⟨-, unshadowed⟩, target⟩ := calm
  rw [resolves] at target
  obtain ⟨v, visits, still⟩ :
      ∃ v, (r.way? engine.defaultKey before place).bind (visit? engine s before after) = some v ∧
        v.isCalm engine = true := by
    simpa [Except.isOk, Except.toBool, Option.any_eq_true] using target
  obtain ⟨rfl, -, state, fuel, overridable, start, stop, result, narrower, below, leads⟩ :=
    find_of_visit untagged noLocals outermost noState flowed unshadowed visits finds
  have unchanged : result = some v.node := flowNode_of_calm whole state still narrower below
  exact resolve_eq_ok_iff.mpr ⟨v.node, leads v.node unchanged, whole, rfl⟩

/-- After a pass that does not disturb it, the place holds the reference as an expression, or the
value that the reference has. -/
theorem agrees_of_pass (agrees : Agrees engine s r place before) :
    ∃ node, after.lookup? place engine.defaultKey = some node ∧
      (node.value = .expression (.reference r) ∨ node.isResolved = true ∧
        r.resolve (s.scopeAt after place) engine.defaultKey false = .ok (.ofValue node.value)) := by
  obtain ⟨node, reached, holds⟩ := agrees
  have undisturbed := calm
  simp only [isUndisturbed, Bool.and_eq_true] at undisturbed
  obtain ⟨⟨around, -⟩, -⟩ := undisturbed
  obtain ⟨v, visits, stands⟩ : ∃ v, visit? engine s before after place = some v ∧
      (v.binding.scope.anchor == place && v.isCalm engine) = true := by
    simpa [Option.any_eq_true] using around
  rw [Bool.and_eq_true, beq_iff_eq] at stands
  obtain ⟨anchored, still⟩ := stands
  have same : v.node = node :=
    Option.some.inj ((Visit.lookup_of_follow visits).symm.trans reached)
  obtain ⟨fuel, overridable, start, stop, result, narrower, below, leads⟩ :=
    flow_of_visit noState flowed visits
  obtain ⟨names, scope⟩ := Visit.scope_of_follow visits
  have here : v.binding.scope = s.scopeAt before place := by
    rw [scope] at anchored ⊢
    simp only at anchored
    rw [anchored]
    rfl
  have state : v.binding.document.state = none := by
    rw [Binding.document, here]
    exact noState
  rcases holds with written | ⟨whole, resolves⟩
  · obtain ⟨c, yielded, outcome⟩ :=
      flowNode_of_reference (same ▸ written) still narrower below
    have stands := lookup_of_walkPath (leads c yielded [])
    refine ⟨c, stands, outcome.imp_right ?_⟩
    rintro ⟨whole, resolves⟩
    rw [here] at resolves
    exact ⟨whole, resolve_of_undisturbed untagged noLocals outermost noState flowed calm resolves⟩
  · have unchanged : result = some node := by
      rw [← same]
      exact flowNode_of_calm (same ▸ whole) state still narrower below
    exact ⟨node, lookup_of_walkPath (leads node unchanged []), .inr ⟨whole,
      resolve_of_undisturbed untagged noLocals outermost noState flowed calm resolves⟩⟩

end

/-! ### Runs -/

/-- No pass of a run disturbs a place and the way of a reference. -/
def undisturbedWithin (engine : Engine) (deeper : Deeper) (s : Setting) (r : Reference)
    (place : List String) : (passes : Nat) → Node → World → Bool
  | 0, _, _ => true
  | passes + 1, root, world =>
    match pass engine deeper s root world with
    | none => true
    | some (next, middle) =>
      isUndisturbed engine s r place root next &&
        (next.same root || undisturbedWithin engine deeper s r place passes next middle)

section

variable {engine : Engine} {deeper : Deeper} {s : Setting} {r : Reference} {place : List String}

/-- In the tree that an undisturbed run settles on, the place holds the reference as an expression,
or the value that the reference has. -/
theorem agrees_of_settleWithin (untagged : r.tag = none) (noLocals : s.locals = [])
    (outermost : s.outer = none) (noState : s.state = none) {passes : Nat} {root tree : Node}
    {world world' : World} (agrees : Agrees engine s r place root)
    (settles : settleWithin engine deeper s passes root world = some (some tree, world'))
    (calm : undisturbedWithin engine deeper s r place passes root world = true) :
    ∃ node, tree.lookup? place engine.defaultKey = some node ∧
      (node.value = .expression (.reference r) ∨ node.isResolved = true ∧
        r.resolve (s.scopeAt tree place) engine.defaultKey false = .ok (.ofValue node.value)) := by
  induction passes generalizing root world with
  | zero => cases settles
  | succ passes ih =>
    rw [settleWithin] at settles
    obtain ⟨next, middle, flowed, rest⟩ := Run.eq_of_bind settles
    rw [undisturbedWithin, flowed] at calm
    simp only [Bool.and_eq_true, Bool.or_eq_true] at calm
    obtain ⟨quiet, later⟩ := calm
    have here := agrees_of_pass untagged noLocals outermost noState flowed quiet agrees
    split at rest
    · cases rest
      exact here
    · next changed =>
      obtain ⟨node, reached, holds⟩ := here
      refine ih ⟨node, reached, holds.imp_left ?_⟩ rest (later.resolve_left changed)
      intro written
      rw [Node.expr?, written]

/-- What is reported of a node is reported of the tree that it is in. -/
theorem isReported_of_lookup {defaultKey : String} {root node : Node} {path : List String}
    (reached : root.lookup? path defaultKey = some node) (reported : node.isReported = true) :
    root.isReported = true := by
  induction path generalizing root with
  | nil =>
    cases reached
    exact reported
  | cons segment rest ih =>
    rw [Node.lookup?_cons] at reached
    obtain ⟨child, stepped, onward⟩ := Option.bind_eq_some_iff.mp reached
    have below := ih onward
    obtain ⟨value, annotations, source⟩ := root
    unfold Node.step? Node.stepBy? at stepped
    cases value with
    | map fields =>
      rw [Node.isReported, Value.isReported, fieldsReported_eq_any]
      simp only [Bool.or_eq_true, List.any_eq_true]
      exact .inr ⟨_, Fields.mem_of_find? stepped, below⟩
    | list items =>
      rw [Node.isReported, Value.isReported, itemsReported_eq_any]
      simp only [Bool.or_eq_true, List.any_eq_true]
      have member : child ∈ items := by
        simp only at stepped
        split at stepped
        · obtain ⟨position, -, found⟩ := Option.bind_eq_some_iff.mp stepped
          exact List.mem_of_getElem? found
        · exact List.mem_of_find?_eq_some stepped
      exact .inr ⟨child, member, below⟩
    | _ => cases stepped

end

/-! ### Cascades -/

theorem Flow.eq_of_bind {α β : Type} {x : Flow α} {next : α → Flow β} {world world' : World} {b : β}
    (yields : (x >>= next).run world = some (.ok b, world')) :
    ∃ a middle, x.run world = some (.ok a, middle) ∧ (next a).run middle = some (.ok b, world') := by
  obtain ⟨outcome, middle, first, rest⟩ := Run.eq_of_bind yields
  cases outcome with
  | ok a => exact ⟨a, middle, first, rest⟩
  | error failure => cases rest

/-- The setting in which a cascade flows its template, the template with the fields that stubs add
to it, and the world in which the passes begin. -/
def Engine.opening? (engine : Engine) (template : Node) (stubs : List Node) (world : World) :
    Option (Setting × Node × World) :=
  match (engine.prepared stubs).run world with
  | some (.ok prepared, later) =>
    some (cascadeSetting ⟨later.documents, []⟩ prepared.stubs none,
      injected engine.defaultKey template prepared.stubs,
      { later with documents := later.documents + 1 })
  | _ => none

/-- A report that is empty together with another one was empty before. -/
theorem isEmpty_of_absorb {report other : Report} (empty : (report.absorb other).isEmpty = true) :
    report.isEmpty = true := by
  have grows : ∀ (added entries : List ReportEntry), added.foldl Report.add entries = [] →
      entries = [] := by
    intro added
    induction added with
    | nil => exact fun entries nothing => nothing
    | cons entry rest ih =>
      intro entries nothing
      have before := ih _ nothing
      rw [Report.add] at before
      split at before
      · exact before
      · exact (List.append_eq_nil_iff.mp before).1
  rw [Report.absorb, Report.isEmpty, Report.sorted, List.isEmpty_iff, ← List.length_eq_zero_iff,
    List.length_mergeSort, List.length_eq_zero_iff] at empty
  rw [Report.isEmpty, grows _ _ empty]
  rfl

theorem Flow.eq_of_lift {α : Type} {run : Run α} {a : α} {world world' : World}
    (yields : (ExceptT.lift run : Flow α).run world = some (.ok a, world')) :
    run world = some (a, world') := by
  obtain ⟨value, middle, first, made⟩ := Run.eq_of_bind
    (show (run >>= fun value => pure (Except.ok value) : Run (Except FlowError α)) world = _
      from by rw [← map_eq_pure_bind]; exact yields)
  cases made
  exact first

/-- A template that succeeds with prepared stubs settles on a tree, of which the outcome is made. -/
theorem settle_of_applyPrepared {engine : Engine} {template : Node} {prepared : Prepared}
    {state : Option Node} {world world' : World} {outcome : Outcome}
    (succeeds : (engine.applyPrepared template prepared state).run world =
      some (.ok outcome, world')) :
    ∃ tree, settle engine (engine.below 0) (cascadeSetting ⟨world.documents, []⟩ prepared.stubs state)
        (injected engine.defaultKey template prepared.stubs)
        { world with documents := world.documents + 1 } = some (some tree, world') ∧
      engine.outcomeOfTree tree prepared.unresolved = .ok outcome := by
  obtain ⟨tree, middle, flowed, finished⟩ := Flow.eq_of_bind succeeds
  obtain ⟨id, begun, opened, flows⟩ := Flow.eq_of_bind flowed
  obtain ⟨found, last, settles, made⟩ := Flow.eq_of_bind flows
  cases opened
  obtain ⟨same, rfl⟩ : engine.outcomeOfTree tree prepared.unresolved = .ok outcome ∧
      middle = world' := Prod.mk.inj (Option.some.inj finished)
  cases found with
  | none => cases made
  | some tree' =>
    cases made
    exact ⟨tree, Flow.eq_of_lift settles, same⟩

/-- The document of an outcome is the final one of its tree, and what is not resolved in the tree is
reported. -/
theorem Engine.eq_of_outcomeOfTree {engine : Engine} {tree : Node} {kept : Report} {outcome : Outcome}
    (made : engine.outcomeOfTree tree kept = .ok outcome) :
    outcome.document = finalDocument tree ∧
      outcome.unresolved =
        if ((Report.collect tree engine.defaultKey).absorb kept).isEmpty then none
        else some ((Report.collect tree engine.defaultKey).absorb kept) := by
  unfold Engine.outcomeOfTree at made
  simp only at made
  split at made
  · cases made
  · cases made
    exact ⟨rfl, rfl⟩

/-- A cascade that succeeds settles on a tree, of which its document is made. -/
theorem settle_of_cascade {engine : Engine} {template root : Node} {stubs : List Node}
    {world world' start : World} {outcome : Outcome} {s : Setting}
    (succeeds : (engine.cascade template stubs none).run world = some (.ok outcome, world'))
    (opens : engine.opening? template stubs world = some (s, root, start)) :
    ∃ tree, settle engine (engine.below 0) s root start = some (some tree, world') ∧
      outcome.document = finalDocument tree ∧
      (outcome.unresolved = none → (Report.collect tree engine.defaultKey).isEmpty = true) := by
  obtain ⟨prepared, later, ready, applied⟩ := Flow.eq_of_bind succeeds
  obtain ⟨tree, settles, made⟩ := settle_of_applyPrepared applied
  rw [Engine.opening?, ready] at opens
  cases opens
  obtain ⟨document, unresolved⟩ := Engine.eq_of_outcomeOfTree made
  refine ⟨tree, settles, document, fun complete => ?_⟩
  rw [unresolved] at complete
  split at complete
  · next empty => exact isEmpty_of_absorb empty
  · cases complete

/-- The node holds just a reference, as a string or read. -/
def Node.holds (node : Node) (r : Reference) : Bool :=
  match node.expr? with
  | some (.reference other) => other == r
  | _ => false

theorem Node.expr?_of_holds {node : Node} {r : Reference} (holds : node.holds r = true) :
    node.expr? = some (.reference r) := by
  unfold Node.holds at holds
  split at holds
  · next other read =>
    rw [beq_iff_eq] at holds
    rw [read, holds]
  · cases holds

/-- A cascade succeeds with nothing unresolved, a place holds a reference once the stub overrides are
put in, and the passes disturb it or do not. -/
def opensWith (engine : Engine) (template : Node) (stubs : List Node) (r : Reference)
    (place : List String) : Option Bool := do
  let (s, root, start) ← engine.opening? template stubs {}
  let written ← (s.seeded engine root).lookup? place engine.defaultKey
  let (answer, _) ← (engine.cascade template stubs none).run {}
  let outcome ← answer.toOption
  if written.holds r && outcome.unresolved.isNone then
    some (undisturbedWithin engine (engine.below 0) s r place engine.maxPasses
      (s.seeded engine root) start)
  else none

theorem exists_of_opensWith {engine : Engine} {template : Node} {stubs : List Node} {r : Reference}
    {place : List String} {calm : Bool} (opens : opensWith engine template stubs r place = some calm) :
    ∃ outcome world' s root start written,
      (engine.cascade template stubs none).run {} = some (.ok outcome, world') ∧
      outcome.unresolved = none ∧
      engine.opening? template stubs {} = some (s, root, start) ∧
      (s.seeded engine root).lookup? place engine.defaultKey = some written ∧
      written.expr? = some (.reference r) ∧
      undisturbedWithin engine (engine.below 0) s r place engine.maxPasses
        (s.seeded engine root) start = calm := by
  obtain ⟨⟨s, root, start⟩, opened, rest⟩ := Option.bind_eq_some_iff.mp opens
  obtain ⟨written, stands, rest⟩ := Option.bind_eq_some_iff.mp rest
  obtain ⟨⟨answer, world'⟩, ran, rest⟩ := Option.bind_eq_some_iff.mp rest
  obtain ⟨outcome, succeeded, rest⟩ := Option.bind_eq_some_iff.mp rest
  have succeeds : answer = .ok outcome := by
    cases answer with
    | error failure => cases succeeded
    | ok made => exact congrArg Except.ok (Option.some.inj succeeded)
  by_cases known : (written.holds r && outcome.unresolved.isNone) = true
  · rw [if_pos known, Option.some.injEq] at rest
    rw [Bool.and_eq_true, Option.isNone_iff_eq_none] at known
    rw [succeeds] at ran
    exact ⟨outcome, world', s, root, start, written, ran, known.2, opened, stands,
      Node.expr?_of_holds known.1, rest⟩
  · rw [if_neg known] at rest
    cases rest

/-- A template that merges further fields, and whose last field refers to one that a stub overrides.
-/
def mergingTemplate : Node :=
  .ofJson "template" (.object [("<<", .string "(( merge ))"),
    ("db", .object [("port", .int 1)]), ("public", .string "(( db.port ))")])

/-- A stub with another port and a further field. -/
def portStub : Node :=
  .ofJson "stub" (.object [("db", .object [("port", .int 2)]), ("extra", .int 5)])

/-- What a cascade leaves at a place, and what a reference means there in the final tree: both as
numbers. -/
def finalNumbers (engine : Engine) (template : Node) (stubs : List Node) (r : Reference)
    (place : List String) : Option (Option Int64 × Option Int64) := do
  let (s, root, start) ← engine.opening? template stubs {}
  let (settled, _) ← settle engine (engine.below 0) s root start
  let tree ← settled
  let node ← tree.lookup? place engine.defaultKey
  let resolved ← (r.resolve (s.scopeAt tree place) engine.defaultKey false).toOption
  return (node.value.asInt?, resolved.value.asInt?)

/-- A cascade succeeds with nothing unresolved, a place holds a reference once the stub overrides are
put in, and in the end it holds another value than the reference has in the final tree. -/
def Disagrees (engine : Engine) (template : Node) (stubs : List Node) (r : Reference)
    (place : List String) : Prop :=
  ∃ outcome world' s root start written last tree node resolved,
    (engine.cascade template stubs none).run {} = some (.ok outcome, world') ∧
    outcome.unresolved = none ∧
    engine.opening? template stubs {} = some (s, root, start) ∧
    (s.seeded engine root).lookup? place engine.defaultKey = some written ∧
    written.expr? = some (.reference r) ∧
    settle engine (engine.below 0) s root start = some (some tree, last) ∧
    tree.lookup? place engine.defaultKey = some node ∧
    r.resolve (s.scopeAt tree place) engine.defaultKey false = .ok resolved ∧
    node.value ≠ resolved.value

theorem disagrees_of_numbers {engine : Engine} {template : Node} {stubs : List Node} {r : Reference}
    {place : List String} {calm : Bool} {left meant : Option Int64}
    (opens : opensWith engine template stubs r place = some calm)
    (numbers : finalNumbers engine template stubs r place = some (left, meant))
    (differ : left ≠ meant) : Disagrees engine template stubs r place := by
  obtain ⟨outcome, world', s, root, start, written, succeeds, complete, opened, stands, reads, -⟩ :=
    exists_of_opensWith opens
  obtain ⟨⟨_, _, _⟩, again, rest⟩ := Option.bind_eq_some_iff.mp numbers
  rw [opened] at again
  cases again
  obtain ⟨⟨settled, last⟩, settles, rest⟩ := Option.bind_eq_some_iff.mp rest
  obtain ⟨tree, made, rest⟩ := Option.bind_eq_some_iff.mp rest
  obtain ⟨node, reached, rest⟩ := Option.bind_eq_some_iff.mp rest
  obtain ⟨resolved, resolves, rest⟩ := Option.bind_eq_some_iff.mp rest
  obtain ⟨leaves, means⟩ := Prod.mk.inj (Option.some.inj rest)
  subst made
  refine ⟨outcome, world', s, root, start, written, last, tree, node, resolved, succeeds, complete,
    opened, stands, reads, settles, reached, ?_, ?_⟩
  · cases answer : r.resolve (s.scopeAt tree place) engine.defaultKey false with
    | error u =>
      rw [answer] at resolves
      cases resolves
    | ok value =>
      rw [answer] at resolves
      exact congrArg Except.ok (Option.some.inj resolves)
  · intro same
    rw [same] at leaves
    exact differ (leaves.symm.trans means)

/-- A list with an entry that removes itself, and a reference to what stands after it. -/
def removingTemplate : Node :=
  .ofJson "template" (.object [
    ("l", .array [.int 1, .string "(( ~~ ))", .int 2, .int 3]), ("x", .string "(( l.[2] ))")])

/-- A list that merges further entries, and a reference to a field of its own entry. -/
def mergingList : Node :=
  .ofJson "template" (.object [
    ("list", .array [.object [("<<", .string "(( merge ))")],
      .object [("name", .string "a"), ("v", .int 1)]]),
    ("x", .string "(( list.a.v ))")])

/-- A stub with another value of that field. -/
def entryStub : Node :=
  .ofJson "stub" (.object [("list", .array [.object [("name", .string "a"), ("v", .int 2)]])])

end Cascade
