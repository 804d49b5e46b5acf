import PhraseSearch.Network.Basic
import PhraseSearch.Pattern

/-!
# Trees below nodes

The children of a node, their children, and so on are the tree below the node.  `pattern?` reads it
without ids, if it is a tree at all: it is none where a child does not exist, or where a node is
its own descendant.

`isClosed` and `references` look for references in the tree.  They go through it from left to
right, and fail where they come to a child that does not exist; `isClosed` ends at the first
reference, and so does not notice what is wrong behind it.

A path that is longer than the number of nodes passes one of them twice, so the depth to which the
tree is read cuts off nothing but trees without end.

    a tree is closed iff its pattern has no references                 (closedBelow_of_unfold)
    its references are those of its pattern                            (collectReferences_of_unfold)
-/

namespace PhraseSearch.Network

/-! ## Reading -/

/-- The pattern of the tree below a node, down to the given depth. -/
def unfold (net : Network) : Nat → Nat → Option Pattern
  | 0, _ => none
  | depth + 1, id =>
    match net.kind? id with
    | none => none
    | some .join | some .start | some .finish => some .connector
    | some (.terminal list) => some (.terminal list)
    | some (.sequence items) => (items.mapM (net.unfold depth)).map .sequence
    | some (.alternation alternatives) =>
      (alternatives.mapM (net.unfold depth)).map .alternation
    | some (.repetition inner bounds) => (net.unfold depth inner).map (.repetition · bounds)
    | some (.reference rule) => some (.reference rule)

/-- The pattern of the tree below a node. -/
def pattern? (net : Network) (id : Nat) : Option Pattern := net.unfold (net.size + 1) id

/-- Whether no reference is met below a node, down to the given depth. -/
def closedBelow (net : Network) : Nat → Nat → Except Fault Bool
  | 0, _ => .error .endless
  | depth + 1, id =>
    match net.kind? id with
    | none => .error (.missing id)
    | some (.reference _) => .ok false
    | some kind => kind.children.allM (net.closedBelow depth)

/-- Whether the tree below a node holds no reference. -/
def isClosed (net : Network) (id : Nat) : Except Fault Bool := net.closedBelow (net.size + 1) id

/-- A list of names with one more, if it is new. -/
def addName (names : List String) (name : String) : List String :=
  if name ∈ names then names else names ++ [name]

/-- The names so far with those that are referred to below a node, down to the given depth. -/
def collectReferences (net : Network) : Nat → List String → Nat → Except Fault (List String)
  | 0, _, _ => .error .endless
  | depth + 1, names, id =>
    match net.kind? id with
    | none => .error (.missing id)
    | some (.reference rule) => .ok (addName names rule)
    | some kind => kind.children.foldlM (net.collectReferences depth) names

/-- The rules that the tree below a node refers to, each once, in the order in which they are first
met. -/
def references (net : Network) (id : Nat) : Except Fault (List String) :=
  net.collectReferences (net.size + 1) [] id

/-! ## Lemmas -/

theorem allM_of_mapM {net : Network} {depth : Nat} {ids : List Nat} {ps : List Pattern}
    (ih : ∀ {id p}, net.unfold depth id = some p →
      net.closedBelow depth id = .ok p.references.isEmpty)
    (h : ids.mapM (net.unfold depth) = some ps) :
    ids.allM (net.closedBelow depth) = .ok (Pattern.allReferences ps).isEmpty := by
  induction ids generalizing ps with
  | nil =>
    obtain rfl : ps = [] := by simpa using h.symm
    rfl
  | cons id ids ihs =>
    simp only [List.mapM_cons, Option.bind_eq_bind, Option.bind_eq_some_iff, Option.pure_def,
      Option.some.injEq] at h
    obtain ⟨p, hp, qs, hqs, rfl⟩ := h
    rw [List.allM, ih hp, Pattern.allReferences]
    cases hc : p.references.isEmpty <;> simp_all [bind, Except.bind, pure, Except.pure]

theorem closedBelow_of_unfold {net : Network} {depth id : Nat} {p : Pattern}
    (h : net.unfold depth id = some p) :
    net.closedBelow depth id = .ok p.references.isEmpty := by
  induction depth generalizing id p with
  | zero => simp [unfold] at h
  | succ depth ih =>
    rw [unfold] at h
    rw [closedBelow]
    cases hkind : net.kind? id with
    | none => simp [hkind] at h
    | some kind =>
      rw [hkind] at h
      cases kind with
      | sequence items =>
        obtain ⟨ps, hps, rfl⟩ := Option.map_eq_some_iff.1 h
        exact allM_of_mapM ih hps
      | alternation alternatives =>
        obtain ⟨ps, hps, rfl⟩ := Option.map_eq_some_iff.1 h
        exact allM_of_mapM ih hps
      | repetition inner bounds =>
        obtain ⟨q, hq, rfl⟩ := Option.map_eq_some_iff.1 h
        simp only [NodeKind.children, Pattern.references, List.allM, ih hq]
        cases q.references.isEmpty <;> rfl
      | _ => cases h; rfl

theorem foldlM_of_mapM {net : Network} {depth : Nat} {ids : List Nat} {ps : List Pattern}
    (ih : ∀ {names id p}, net.unfold depth id = some p →
      net.collectReferences depth names id = .ok (p.references.foldl addName names))
    (h : ids.mapM (net.unfold depth) = some ps) (names : List String) :
    ids.foldlM (net.collectReferences depth) names =
      .ok ((Pattern.allReferences ps).foldl addName names) := by
  induction ids generalizing ps names with
  | nil =>
    obtain rfl : ps = [] := by simpa using h.symm
    rfl
  | cons id ids ihs =>
    simp only [List.mapM_cons, Option.bind_eq_bind, Option.bind_eq_some_iff, Option.pure_def,
      Option.some.injEq] at h
    obtain ⟨p, hp, qs, hqs, rfl⟩ := h
    rw [List.foldlM_cons, ih hp, Pattern.allReferences, List.foldl_append]
    exact ihs hqs _

theorem collectReferences_of_unfold {net : Network} {depth id : Nat} {p : Pattern}
    (h : net.unfold depth id = some p) (names : List String) :
    net.collectReferences depth names id = .ok (p.references.foldl addName names) := by
  induction depth generalizing id p names with
  | zero => simp [unfold] at h
  | succ depth ih =>
    rw [unfold] at h
    rw [collectReferences]
    cases hkind : net.kind? id with
    | none => simp [hkind] at h
    | some kind =>
      rw [hkind] at h
      cases kind with
      | sequence items =>
        obtain ⟨ps, hps, rfl⟩ := Option.map_eq_some_iff.1 h
        exact foldlM_of_mapM (fun h => ih h _) hps names
      | alternation alternatives =>
        obtain ⟨ps, hps, rfl⟩ := Option.map_eq_some_iff.1 h
        exact foldlM_of_mapM (fun h => ih h _) hps names
      | repetition inner bounds =>
        obtain ⟨q, hq, rfl⟩ := Option.map_eq_some_iff.1 h
        simp only [NodeKind.children, Pattern.references, List.foldlM_cons, ih hq]
        rfl
      | _ => cases h; rfl

end PhraseSearch.Network
