import PhraseSearch.Proofs.Network.TwinTrees
import PhraseSearch.Proofs.Pattern.Compile

/-!
# The automaton of a tree depends on its pattern alone

In alike networks walks that skip connectors meet twins, and twins are given the same numbers, so
the automata between twin ends are equal.  As trees of one pattern are lowered to twins, it does not
matter in which network the tree stands, where in it, and what else there is.

    walks from twins meet twins                                        (forall₂_visibleWithin)
    alike networks have the same automaton                             (withoutJoins_eq)
    trees of one pattern have the same automaton                       (both_automatonBelow)
-/

namespace PhraseSearch

namespace Network

open Edit

variable {base base' net net' : Network} {i j : Nat}

/-! ## Walks -/

theorem Alike.exists_node? (h : Alike base base' net net') (hij : Twins base base' i j)
    {node node' : Node} (hi : net.node? i = some node) (hj : net'.node? j = some node') :
    node.kind = node'.kind ∧
      List.Forall₂ (Twins base base') node.edges.toList node'.edges.toList := by
  constructor
  · have hkind := h.kind hij
    rw [kind?, kind?, hi, hj] at hkind
    exact Option.some.inj hkind
  · rw [← targets_of_node? hi, ← targets_of_node? hj]
    exact h.targets hij

/-- Whether sets hold twins. -/
def TwinSets (base base' : Network) (seen seen' : Std.TreeSet Nat) : Prop :=
  ∀ i j, Twins base base' i j → (i ∈ seen ↔ j ∈ seen')

theorem TwinSets.insert {seen seen' : Std.TreeSet Nat} (h : TwinSets base base' seen seen')
    (hij : Twins base base' i j) : TwinSets base base' (seen.insert i) (seen'.insert j) := by
  intro x y hxy
  rw [mem_insert, mem_insert, hxy.eq_iff hij, h x y hxy]

theorem forall₂_skipJoins {turns turns' : Nat} {seen seen' : Std.TreeSet Nat}
    {found found' out out' : Array Nat} {stack stack' : List Nat} (h : Alike base base' net net')
    (hseen : TwinSets base base' seen seen')
    (hfound : List.Forall₂ (Twins base base') found.toList found'.toList)
    (hstack : List.Forall₂ (Twins base base') stack stack')
    (hout : net.skipJoins turns seen found stack = .ok out)
    (hout' : net'.skipJoins turns' seen' found' stack' = .ok out') :
    List.Forall₂ (Twins base base') out.toList out'.toList := by
  induction turns generalizing turns' seen seen' found found' stack stack' with
  | zero =>
    cases hstack with
    | nil =>
      rw [← eq_of_skipJoins_nil hout, ← eq_of_skipJoins_nil hout']
      exact hfound
    | cons _ _ => cases hout
  | succ turns ih =>
    cases hstack with
    | nil =>
      rw [← eq_of_skipJoins_nil hout, ← eq_of_skipJoins_nil hout']
      exact hfound
    | @cons id id' stack stack' hid hstack =>
      obtain ⟨_, node, hturns, hi, hout⟩ := exists_of_skipJoins hout
      obtain ⟨turns', node', rfl, hj, hout'⟩ := exists_of_skipJoins hout'
      cases hturns
      obtain ⟨hkind, hedges⟩ := h.exists_node? hid hi hj
      rw [hkind] at hout
      by_cases hmet : id ∈ seen
      · rw [if_pos hmet] at hout
        rw [if_pos ((hseen _ _ hid).1 hmet)] at hout'
        exact ih hseen hfound hstack hout hout'
      · rw [if_neg hmet] at hout
        rw [if_neg (mt (hseen _ _ hid).2 hmet)] at hout'
        by_cases hjoin : node'.kind = .join
        · rw [if_pos hjoin] at hout hout'
          exact ih (hseen.insert hid) hfound (List.rel_append hedges hstack) hout hout'
        · rw [if_neg hjoin] at hout hout'
          refine ih (hseen.insert hid) ?_ hstack hout hout'
          rw [Array.toList_push, Array.toList_push]
          exact List.rel_append hfound (.cons hid .nil)

theorem forall₂_visibleWithin {turns turns' : Nat} {out out' : List Nat}
    (h : Alike base base' net net') (hij : Twins base base' i j)
    (hout : net.visibleWithin turns i = .ok out) (hout' : net'.visibleWithin turns' j = .ok out') :
    List.Forall₂ (Twins base base') out out' := by
  obtain ⟨node, found, hi, hskip, rfl⟩ := exists_of_visibleWithin_eq_ok hout
  obtain ⟨node', found', hj, hskip', rfl⟩ := exists_of_visibleWithin_eq_ok hout'
  obtain ⟨-, hedges⟩ := h.exists_node? hij hi hj
  refine forall₂_skipJoins h (fun _ _ _ => ?_) .nil hedges hskip hskip'
  exact iff_of_false Std.TreeSet.not_mem_emptyc Std.TreeSet.not_mem_emptyc

/-! ## Numbers -/

/-- Whether twins have the same numbers. -/
structure TwinNumberings (base base' : Network) (m m' : Numbering) : Prop where
  numbers : ∀ i j, Twins base base' i j → m.numbers[i]? = m'.numbers[j]?
  order : List.Forall₂ (Twins base base') m.order.toList m'.order.toList

namespace TwinNumberings

variable {m m' : Numbering}

theorem size_eq (h : TwinNumberings base base' m m') : m.order.size = m'.order.size := by
  rw [← Array.length_toList, ← Array.length_toList]
  exact h.order.length_eq

theorem order_eq_none (h : TwinNumberings base base' m m') {n : Nat} (hn : m.order[n]? = none) :
    m'.order[n]? = none := by
  rw [Array.getElem?_eq_none_iff] at hn ⊢
  rwa [← h.size_eq]

theorem exists_order (h : TwinNumberings base base' m m') {n : Nat} (hn : m.order[n]? = some i) :
    ∃ j, m'.order[n]? = some j ∧ Twins base base' i j := by
  have hrel := rel_getElem? h.order n
  rw [Array.getElem?_toList, Array.getElem?_toList, hn] at hrel
  generalize m'.order[n]? = other at hrel
  cases hrel with
  | some htwins => exact ⟨_, rfl, htwins⟩

theorem number (h : TwinNumberings base base' m m') (hij : Twins base base' i j) :
    (m.number i).1 = (m'.number j).1 ∧
      TwinNumberings base base' (m.number i).2 (m'.number j).2 := by
  rw [Numbering.number, Numbering.number, h.numbers i j hij]
  cases m'.numbers[j]? with
  | some n => exact ⟨rfl, h⟩
  | none =>
    refine ⟨h.size_eq, fun x y hxy => ?_, ?_⟩
    · show (m.numbers.insert i m.order.size)[x]? = (m'.numbers.insert j m'.order.size)[y]?
      rw [Std.TreeMap.getElem?_insert, Std.TreeMap.getElem?_insert, h.size_eq, h.numbers x y hxy]
      simp only [hij.compare_eq_iff hxy]
    · show List.Forall₂ _ (m.order.push i).toList (m'.order.push j).toList
      rw [Array.toList_push, Array.toList_push]
      exact List.rel_append h.order (.cons hij .nil)

theorem numberAll (h : TwinNumberings base base' m m') {ids ids' : List Nat}
    (hids : List.Forall₂ (Twins base base') ids ids') :
    (m.numberAll ids).1 = (m'.numberAll ids').1 ∧
      TwinNumberings base base' (m.numberAll ids).2 (m'.numberAll ids').2 := by
  induction hids generalizing m m' with
  | nil => exact ⟨rfl, h⟩
  | cons hid _ ih =>
    obtain ⟨hnumber, hone⟩ := h.number hid
    obtain ⟨hnumbers, hall⟩ := ih hone
    exact ⟨congrArg₂ List.cons hnumber hnumbers, hall⟩

theorem start {start start' finish finish' : Nat} (hstart : Twins base base' start start')
    (hfinish : Twins base base' finish finish') : TwinNumberings base base'
      ⟨((∅ : Std.TreeMap Nat Nat).insert start Automaton.start).insert finish Automaton.finish,
        #[start, finish]⟩
      ⟨((∅ : Std.TreeMap Nat Nat).insert start' Automaton.start).insert finish' Automaton.finish,
        #[start', finish']⟩ where
  numbers x y hxy := by
    simp only [Std.TreeMap.getElem?_insert, hstart.compare_eq_iff hxy, hfinish.compare_eq_iff hxy,
      Std.TreeMap.getElem?_emptyc]
  order := .cons hstart (.cons hfinish .nil)

end TwinNumberings

/-! ## States -/

theorem numberStates_eq {steps steps' turns turns' : Nat} {m m' : Numbering}
    {states out out' : Array Automaton.State} (h : Alike base base' net net')
    (hm : TwinNumberings base base' m m')
    (hout : net.numberStates steps turns m states = .ok out)
    (hout' : net'.numberStates steps' turns' m' states = .ok out') : out = out' := by
  induction turns generalizing turns' m m' states with
  | zero =>
    cases hid : m.order[states.size]? with
    | none => rw [eq_of_numberStates hid hout, eq_of_numberStates (hm.order_eq_none hid) hout']
    | some id =>
      obtain ⟨_, _, _, -, -, -, hturns⟩ := exists_of_numberStates hid hout
      cases hturns
  | succ turns ih =>
    cases hid : m.order[states.size]? with
    | none => rw [eq_of_numberStates hid hout, eq_of_numberStates (hm.order_eq_none hid) hout']
    | some id =>
      obtain ⟨id', hid', htwins⟩ := hm.exists_order hid
      obtain ⟨rest, visible, label, hvisible, hlabel, hrest, hturns⟩ :=
        exists_of_numberStates hid hout
      obtain ⟨rest', visible', label', hvisible', hlabel', hrest', -⟩ :=
        exists_of_numberStates hid' hout'
      cases hturns
      obtain ⟨hedges, hmore⟩ := hm.numberAll (forall₂_visibleWithin h htwins hvisible hvisible')
      rw [h.kind htwins, hlabel'] at hlabel
      cases hlabel
      rw [hedges] at hrest
      exact ih hmore hrest hrest'

theorem withoutJoins_eq {start start' finish finish' : Nat} {a a' : Automaton}
    (h : Alike base base' net net') (hstart : Twins base base' start start')
    (hfinish : Twins base base' finish finish') (ha : net.withoutJoins start finish = .ok a)
    (ha' : net'.withoutJoins start' finish' = .ok a') : a = a' := by
  have hstates : a.states = a'.states := numberStates_eq h (.start hstart hfinish)
    (numberStates_of_withoutJoins ha) (numberStates_of_withoutJoins ha')
  cases a
  cases a'
  exact congrArg Automaton.mk hstates

/-! ## Automata of trees -/

/-- Trees of one pattern have the same automaton, wherever they stand. -/
theorem Edit.both_automatonBelow {top top' : Nat} {p : Pattern} (hp : net.pattern? top = some p)
    (hp' : net'.pattern? top' = some p) :
    Both (automatonBelow top) (automatonBelow top') net net' fun a _ a' _ => a = a' := by
  have hfirst := (Alike.refl net net').push .start
  have hends := hfirst.push .finish
  have hdepth : ∀ net : Network, net.size + 1 ≤ ((net.push .start).push .finish).size + 1 := by
    intro net
    rw [size_push, size_push]
    omega
  obtain ⟨k, -, hk, -⟩ := exists_unfold_child hp
  obtain ⟨k', -, hk', -⟩ := exists_unfold_child hp'
  have hbranches := twinTrees_of_mapM (mapM_branches hk (unfold_mono (hdepth net) hp))
    (mapM_branches hk' (unfold_mono (hdepth net') hp'))
  refine .bind (both_addNode (.bind (both_addNode (.bind (both_get ?_)))))
  refine .bind (both_kind_eq (hends.left.kind? hk) (hends.right.kind? hk') ?_)
  refine .bind ((both_lowerAlternatives (both_lowerNode _ _) hbranches hends
    (Alike.refl net net').size hfirst.size).mono ?_)
  intro _ built _ built' hbuilt
  refine .bind (both_get ?_)
  cases ha : built.withoutJoins net.size (net.push .start).size with
  | error fault => exact both_throw
  | ok a =>
    cases ha' : built'.withoutJoins net'.size (net'.push .start).size with
    | error fault => exact both_throw_right
    | ok a' =>
      exact both_pure (withoutJoins_eq hbuilt (Alike.refl net net').size hfirst.size ha ha')

end Network

/-- What a pattern is compiled to is the automaton of every tree of that pattern. -/
theorem Pattern.eq_of_compile {net out : Network} {top : Nat} {p : Pattern} {a a' : Automaton}
    (hp : net.pattern? top = some p) (ha : p.compile = .ok a)
    (ha' : Network.Edit.automatonBelow top net = .ok a' out) : a' = a := by
  rw [Pattern.compile] at ha
  cases hplant : Network.Planting.plantPattern p .empty with
  | mk root planted =>
    have hroot := p.pattern?_plantPattern
    rw [hplant] at ha hroot
    cases hbuilt : Network.Edit.automatonBelow root planted with
    | error fault built =>
      simp only [hbuilt] at ha
      cases ha
    | ok b built =>
      simp only [hbuilt] at ha
      cases ha
      exact Network.Edit.both_automatonBelow hp hroot a' out a built ha' hbuilt

end PhraseSearch
