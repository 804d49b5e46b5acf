import PhraseSearch.Automaton.OfNetwork
import PhraseSearch.Proofs.Network.Unmet

/-!
# Skipping connectors

The walk that skips connectors keeps a stack of nodes to look at, all of which its source sees; the
edges of what it has passed are in the set of met nodes or on the stack.  When the stack is empty,
the set holds all that the source sees.

Walks that read something are chains of kept nodes, each of which sees the next.

    a successful walk finds the kept nodes that are seen, each once    (visibleWithin_eq_ok)
    what is read is read along chains of kept nodes                    (reads_iff_chain)
-/

namespace PhraseSearch.Network

/-- Whether a node is there and is no connector. -/
def Kept (net : Network) (id : Nat) : Prop :=
  ∃ k, net.kind? id = some k ∧ k ≠ .join

variable {net : Network}

theorem Sees.snoc {u x y : Nat} (h : net.Sees u x) (join : net.kind? x = some .join)
    (edge : net.Edge x y) : net.Sees u y := by
  induction h with
  | edge first => exact .past first join (.edge edge)
  | past first between _ ih => exact .past first between (ih join edge)

/-! ## The walk -/

/-- What holds while the nodes that a source sees are looked at. -/
structure Skipping (net : Network) (source : Nat) (seen : Std.TreeSet Nat) (found : Array Nat)
    (stack : List Nat) : Prop where
  stack_sees : ∀ t ∈ stack, net.Sees source t
  seen_sees : ∀ t ∈ seen, net.Sees source t
  mem_found : ∀ t, t ∈ found.toList ↔ t ∈ seen ∧ net.Kept t
  nodup : found.toList.Nodup
  direct : ∀ t, net.Edge source t → t ∈ seen ∨ t ∈ stack
  past : ∀ t ∈ seen, net.kind? t = some .join → ∀ u, net.Edge t u → u ∈ seen ∨ u ∈ stack

namespace Skipping

variable {source : Nat} {seen : Std.TreeSet Nat} {found : Array Nat} {stack : List Nat} {id : Nat}

theorem start (net : Network) (source : Nat) :
    Skipping net source ∅ #[] (net.targets source) where
  stack_sees t ht := .edge (mem_targets.1 ht)
  seen_sees t ht := absurd ht Std.TreeSet.not_mem_emptyc
  mem_found t := iff_of_false (by simp) fun h => absurd h.1 Std.TreeSet.not_mem_emptyc
  nodup := List.nodup_nil
  direct t ht := .inr (mem_targets.2 ht)
  past t ht := absurd ht Std.TreeSet.not_mem_emptyc

/-- What was met or on the stack still is, once the top of the stack has been met. -/
theorem move {seen' : Std.TreeSet Nat} {stack' : List Nat} {t : Nat} (hid : id ∈ seen')
    (hseen : ∀ u ∈ seen, u ∈ seen') (hstack : ∀ u ∈ stack, u ∈ stack')
    (h : t ∈ seen ∨ t ∈ id :: stack) : t ∈ seen' ∨ t ∈ stack' := by
  rcases h with h | h
  · exact .inl (hseen t h)
  · rcases List.mem_cons.1 h with rfl | h
    · exact .inl hid
    · exact .inr (hstack t h)

/-- A node that has been met already is passed over. -/
theorem skip (h : Skipping net source seen found (id :: stack)) (hid : id ∈ seen) :
    Skipping net source seen found stack where
  stack_sees t ht := h.stack_sees t (List.mem_cons_of_mem _ ht)
  seen_sees := h.seen_sees
  mem_found := h.mem_found
  nodup := h.nodup
  direct t ht := move hid (fun _ hu => hu) (fun _ hu => hu) (h.direct t ht)
  past t ht hjoin u hu := move hid (fun _ hv => hv) (fun _ hv => hv) (h.past t ht hjoin u hu)

/-- A connector is replaced on the stack by the targets of its edges. -/
theorem pass (h : Skipping net source seen found (id :: stack))
    (hjoin : net.kind? id = some .join) :
    Skipping net source (seen.insert id) found (net.targets id ++ stack) where
  stack_sees t ht := by
    rcases List.mem_append.1 ht with ht | ht
    · exact (h.stack_sees id (by simp)).snoc hjoin (mem_targets.1 ht)
    · exact h.stack_sees t (List.mem_cons_of_mem _ ht)
  seen_sees t ht := by
    rcases mem_insert.1 ht with rfl | ht
    · exact h.stack_sees t (by simp)
    · exact h.seen_sees t ht
  mem_found t := by
    rw [h.mem_found t, mem_insert]
    constructor
    · exact fun ht => ⟨.inr ht.1, ht.2⟩
    · rintro ⟨rfl | ht, hkept⟩
      · obtain ⟨k, hk, hne⟩ := hkept
        rw [hjoin] at hk
        exact absurd (Option.some.inj hk).symm hne
      · exact ⟨ht, hkept⟩
  nodup := h.nodup
  direct t ht := move (mem_insert.2 (.inl rfl)) (fun _ hu => mem_insert.2 (.inr hu))
    (fun _ hu => List.mem_append_right _ hu) (h.direct t ht)
  past t ht hkind u hu := by
    rcases mem_insert.1 ht with rfl | ht
    · exact .inr (List.mem_append_left _ (mem_targets.2 hu))
    · exact move (mem_insert.2 (.inl rfl)) (fun _ hv => mem_insert.2 (.inr hv))
        (fun _ hv => List.mem_append_right _ hv) (h.past t ht hkind u hu)

/-- A kept node is found. -/
theorem find (h : Skipping net source seen found (id :: stack)) (hkept : net.Kept id)
    (hid : id ∉ seen) : Skipping net source (seen.insert id) (found.push id) stack where
  stack_sees t ht := h.stack_sees t (List.mem_cons_of_mem _ ht)
  seen_sees t ht := by
    rcases mem_insert.1 ht with rfl | ht
    · exact h.stack_sees t (by simp)
    · exact h.seen_sees t ht
  mem_found t := by
    rw [Array.toList_push, List.mem_append, List.mem_singleton, h.mem_found t, mem_insert]
    constructor
    · rintro (⟨ht, hkept⟩ | rfl)
      · exact ⟨.inr ht, hkept⟩
      · exact ⟨.inl rfl, hkept⟩
    · rintro ⟨rfl | ht, hkept⟩
      · exact .inr rfl
      · exact .inl ⟨ht, hkept⟩
  nodup := by
    rw [Array.toList_push]
    refine List.nodup_append.2 ⟨h.nodup, List.nodup_singleton id, ?_⟩
    rintro t ht u hu rfl
    rw [List.mem_singleton] at hu
    exact hid (hu ▸ ((h.mem_found t).1 ht).1)
  direct t ht := move (mem_insert.2 (.inl rfl)) (fun _ hu => mem_insert.2 (.inr hu))
    (fun _ hu => hu) (h.direct t ht)
  past t ht hkind u hu := by
    rcases mem_insert.1 ht with rfl | ht
    · obtain ⟨k, hk, hne⟩ := hkept
      rw [hkind] at hk
      exact absurd (Option.some.inj hk).symm hne
    · exact move (mem_insert.2 (.inl rfl)) (fun _ hv => mem_insert.2 (.inr hv))
        (fun _ hv => hv) (h.past t ht hkind u hu)

/-- When the stack is empty, all that is seen has been met. -/
theorem complete (h : Skipping net source seen found []) {t : Nat} (ht : net.Sees source t) :
    t ∈ seen := by
  have hclosed : ∀ {x : Nat}, net.Sees x t → (∀ u, net.Edge x u → u ∈ seen) → t ∈ seen := by
    intro x hx hedges
    induction hx with
    | edge edge => exact hedges _ edge
    | past edge join _ ih =>
      have hmet := hedges _ edge
      exact ih ht fun u hu => (h.past _ hmet join u hu).elim id nofun
  exact hclosed ht fun u hu => (h.direct u hu).elim id nofun

end Skipping

/-- What a walk that succeeds does with the top of the stack. -/
theorem exists_of_skipJoins {turns id : Nat} {seen : Std.TreeSet Nat} {found out : Array Nat}
    {stack : List Nat} (h : net.skipJoins turns seen found (id :: stack) = .ok out) :
    ∃ rest node, turns = rest + 1 ∧ net.node? id = some node ∧
      (if id ∈ seen then net.skipJoins rest seen found stack
        else if node.kind = .join then
          net.skipJoins rest (seen.insert id) found (node.edges.toList ++ stack)
        else net.skipJoins rest (seen.insert id) (found.push id) stack) = .ok out := by
  cases turns with
  | zero => cases h
  | succ rest =>
    rw [skipJoins] at h
    cases hnode : net.node? id with
    | none =>
      rw [hnode] at h
      cases h
    | some node =>
      simp only [hnode] at h
      exact ⟨rest, node, rfl, rfl, h⟩

theorem eq_of_skipJoins_nil {turns : Nat} {seen : Std.TreeSet Nat} {found out : Array Nat}
    (h : net.skipJoins turns seen found [] = .ok out) : found = out := by
  rw [skipJoins.eq_1] at h
  exact Except.ok.inj h

theorem skipJoins_eq_ok {source turns : Nat} {seen : Std.TreeSet Nat} {found out : Array Nat}
    {stack : List Nat} (h : Skipping net source seen found stack)
    (hout : net.skipJoins turns seen found stack = .ok out) :
    ∃ seen', Skipping net source seen' out [] := by
  induction turns generalizing seen found stack with
  | zero =>
    cases stack with
    | nil => exact ⟨seen, eq_of_skipJoins_nil hout ▸ h⟩
    | cons id stack => cases hout
  | succ turns ih =>
    cases stack with
    | nil => exact ⟨seen, eq_of_skipJoins_nil hout ▸ h⟩
    | cons id stack =>
      obtain ⟨_, node, hturns, hnode, hout⟩ := exists_of_skipJoins hout
      cases hturns
      have hkind : net.kind? id = some node.kind := by
        rw [kind?, hnode]
        rfl
      by_cases hmet : id ∈ seen
      · rw [if_pos hmet] at hout
        exact ih (h.skip hmet) hout
      · rw [if_neg hmet] at hout
        by_cases hjoin : node.kind = .join
        · rw [if_pos hjoin, ← targets_of_node? hnode] at hout
          exact ih (h.pass (hjoin ▸ hkind)) hout
        · rw [if_neg hjoin] at hout
          exact ih (h.find ⟨node.kind, hkind, hjoin⟩ hmet) hout

/-- A walk that succeeds begins with the targets of a node that is there. -/
theorem exists_of_visibleWithin_eq_ok {turns source : Nat} {out : List Nat}
    (h : net.visibleWithin turns source = .ok out) : ∃ node found,
      net.node? source = some node ∧
      net.skipJoins turns ∅ #[] node.edges.toList = .ok found ∧ found.toList = out := by
  rw [visibleWithin] at h
  cases hnode : net.node? source with
  | none =>
    rw [hnode] at h
    cases h
  | some node =>
    rw [hnode] at h
    cases hskip : net.skipJoins turns ∅ #[] node.edges.toList with
    | error fault =>
      simp only [hskip] at h
      cases h
    | ok found =>
      simp only [hskip] at h
      exact ⟨node, found, rfl, hskip, Except.ok.inj h⟩

/-- A walk that succeeds finds the kept nodes that its source sees, each once. -/
theorem visibleWithin_eq_ok {turns source : Nat} {out : List Nat}
    (h : net.visibleWithin turns source = .ok out) :
    out.Nodup ∧ ∀ t, t ∈ out ↔ net.Sees source t ∧ net.Kept t := by
  obtain ⟨node, found, hnode, hskip, rfl⟩ := exists_of_visibleWithin_eq_ok h
  rw [← targets_of_node? hnode] at hskip
  obtain ⟨seen, hdone⟩ := skipJoins_eq_ok (.start net source) hskip
  refine ⟨hdone.nodup, fun t => ?_⟩
  rw [hdone.mem_found]
  exact and_congr_left fun _ => ⟨hdone.seen_sees t, hdone.complete⟩

/-! ## Chains of kept nodes -/

/-- A chain of kept nodes between two nodes, each of which sees the next. -/
inductive Chain (net : Network) : Nat → List Nat → Nat → Prop
  | last {source target : Nat} (sees : net.Sees source target) : Chain net source [] target
  | step {source next target : Nat} {between : List Nat} (sees : net.Sees source next)
      (kept : net.Kept next) (rest : Chain net next between target) :
      Chain net source (next :: between) target

theorem label_of_join {id : Nat} (h : net.kind? id = some .join) : net.label id = [] := by
  rw [label, h]

/-- Connectors that are passed are not read. -/
theorem Sees.reads {u t v : Nat} {w : List String} (h : net.Sees u t) (hw : net.Reads t w v) :
    net.Reads u (net.label u ++ w) v := by
  induction h with
  | edge edge => exact .step edge hw
  | past edge join _ ih =>
    have hrest := ih hw
    rw [label_of_join join, List.nil_append] at hrest
    exact .step edge hrest

theorem Chain.reads {u v : Nat} {between : List Nat} (h : net.Chain u between v) :
    net.Reads u (net.label u ++ between.flatMap net.label ++ net.label v) v := by
  induction h with
  | last sees => simpa using sees.reads (.here _)
  | step sees _ _ ih => simpa using sees.reads ih

theorem Chain.of_edge {u x v : Nat} {between : List Nat} (edge : net.Edge u x)
    (join : net.kind? x = some .join) (h : net.Chain x between v) : net.Chain u between v := by
  cases h with
  | last sees => exact .last (.past edge join sees)
  | step sees kept rest => exact .step (.past edge join sees) kept rest

theorem Reads.exists_kind {u v : Nat} {w : List String} (h : net.Reads u w v)
    (hv : net.Kept v) : ∃ k, net.kind? u = some k := by
  cases h with
  | here =>
    obtain ⟨k, hk, -⟩ := hv
    exact ⟨k, hk⟩
  | step edge =>
    obtain ⟨node, hnode, -⟩ := edge
    exact ⟨node.kind, by rw [kind?, hnode]; rfl⟩

/-- What is read up to a kept node is read along a chain, unless no edge is taken. -/
theorem Reads.exists_chain {u v : Nat} {w : List String} (h : net.Reads u w v)
    (hv : net.Kept v) :
    u = v ∧ w = net.label u ∨ ∃ between, net.Chain u between v ∧
      w = net.label u ++ between.flatMap net.label ++ net.label v := by
  induction h with
  | here id => exact .inl ⟨rfl, rfl⟩
  | @step source next target w edge rest ih =>
    refine .inr ?_
    obtain ⟨k, hk⟩ := rest.exists_kind hv
    rcases ih hv with ⟨rfl, rfl⟩ | ⟨between, hchain, rfl⟩
    · exact ⟨[], .last (.edge edge), by simp⟩
    · by_cases hjoin : k = .join
      · subst hjoin
        refine ⟨between, hchain.of_edge edge hk, ?_⟩
        rw [label_of_join hk, List.nil_append, List.append_assoc]
      · refine ⟨next :: between, .step (.edge edge) ⟨k, hk, hjoin⟩ hchain, ?_⟩
        simp only [List.flatMap_cons, List.append_assoc]

/-- Between two different nodes, of which the second is kept, walks and chains read the same. -/
theorem reads_iff_chain {u v : Nat} {w : List String} (hne : u ≠ v) (hv : net.Kept v) :
    w ∈ net.reads u v ↔ ∃ between, net.Chain u between v ∧
      w = net.label u ++ between.flatMap net.label ++ net.label v := by
  constructor
  · intro h
    rcases Reads.exists_chain h hv with ⟨heq, -⟩ | hchain
    · exact absurd heq hne
    · exact hchain
  · rintro ⟨between, hchain, rfl⟩
    exact hchain.reads

end PhraseSearch.Network
