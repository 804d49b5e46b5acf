import Mathlib.Tactic.IntervalCases
import PhraseSearch.Proofs.Network.Descendants
import PhraseSearch.Proofs.Pattern.Compile

/-!
# Automata of nodes

If the tree below a node can be lowered, its automaton is built and accepts what the node stands
for: the tree has a pattern, whose language that is.

    the tree has a pattern without references                (Lowerable.exists_pattern?)
    the node stands for the language of its pattern                    (denotes_iff_mem_language)
    its automaton accepts what it stands for            (accepts_automatonBelow_iff_denotes)
-/

open scoped Computability

namespace PhraseSearch

namespace Network

variable {net : Network}

/-! ## What nodes stand for -/

/-- What can be lowered has a pattern without references. -/
theorem Lowerable.exists_pattern? {top : Nat} (h : net.Lowerable top) :
    ∃ p, net.pattern? top = some p ∧ p.references = [] := by
  obtain ⟨p, hp⟩ := h.hasTree.exists_pattern?
  exact ⟨p, hp, references_eq_nil_of_unfold hp h.closed⟩

/-- What a node of some kind stands for, given what its children stand for. -/
def allows (below : Nat → List String → Prop) : NodeKind → List String → Prop
  | .join | .start | .finish => fun w => w = []
  | .terminal list => fun w => w = [list]
  | .sequence items => fun w => ∃ parts, List.Forall₂ below items parts ∧ parts.flatten = w
  | .alternation alternatives => fun w => ∃ id ∈ alternatives, below id w
  | .repetition inner bounds => fun w =>
    ∃ rounds : List (List String), bounds.Allows rounds.length ∧ (∀ u ∈ rounds, below inner u) ∧
      rounds.flatten = w
  | .reference _ => fun _ => False

theorem denotes_iff {id : Nat} {k : NodeKind} (hk : net.kind? id = some k) (w : List String) :
    net.Denotes id w ↔ allows net.Denotes k w := by
  constructor
  · intro h
    cases h with
    | connector kind silent =>
      obtain rfl := Option.some.inj (hk.symm.trans kind)
      rcases silent with rfl | rfl | rfl <;> rfl
    | terminal kind =>
      obtain rfl := Option.some.inj (hk.symm.trans kind)
      rfl
    | sequence kind each =>
      obtain rfl := Option.some.inj (hk.symm.trans kind)
      exact ⟨_, each, rfl⟩
    | alternation kind mem chosen =>
      obtain rfl := Option.some.inj (hk.symm.trans kind)
      exact ⟨_, mem, chosen⟩
    | repetition kind times each =>
      obtain rfl := Option.some.inj (hk.symm.trans kind)
      exact ⟨_, times, each, rfl⟩
  · intro h
    cases k with
    | join =>
      obtain rfl : w = [] := h
      exact .connector hk (.inl rfl)
    | start =>
      obtain rfl : w = [] := h
      exact .connector hk (.inr (.inl rfl))
    | finish =>
      obtain rfl : w = [] := h
      exact .connector hk (.inr (.inr rfl))
    | terminal list =>
      obtain rfl : w = [list] := h
      exact .terminal hk
    | sequence items =>
      obtain ⟨parts, hparts, rfl⟩ := h
      exact .sequence hk hparts
    | alternation alternatives =>
      obtain ⟨alternative, hmem, hchosen⟩ := h
      exact .alternation hk hmem hchosen
    | repetition inner bounds =>
      obtain ⟨rounds, htimes, hrounds, rfl⟩ := h
      exact .repetition hk htimes hrounds
    | reference rule => exact h.elim

/-- Items that stand for the languages of their patterns stand together for the product of these. -/
theorem forall₂_denotes_iff {depth : Nat} {ids : List Nat} {ps : List Pattern}
    (ih : ∀ {id p}, net.unfold depth id = some p → ∀ w, net.Denotes id w ↔ w ∈ p.language)
    (hps : ids.mapM (net.unfold depth) = some ps) (w : List String) :
    (∃ parts, List.Forall₂ net.Denotes ids parts ∧ parts.flatten = w) ↔
      w ∈ Pattern.productIn (fun _ => 0) ps := by
  induction ids generalizing ps w with
  | nil =>
    obtain rfl : ps = [] := by simpa using hps.symm
    rw [Pattern.productIn, Language.mem_one]
    constructor
    · rintro ⟨parts, hparts, rfl⟩
      cases hparts
      rfl
    · rintro rfl
      exact ⟨[], .nil, rfl⟩
  | cons id ids ihs =>
    obtain ⟨p, qs, rfl, hp, hqs⟩ := unfold_cons hps
    rw [Pattern.productIn, Language.mem_mul]
    constructor
    · rintro ⟨parts, hparts, rfl⟩
      cases hparts with
      | cons hfirst hrest =>
        exact ⟨_, (ih hp _).1 hfirst, _, (ihs hqs _).1 ⟨_, hrest, rfl⟩, rfl⟩
    · rintro ⟨u, hu, v, hv, rfl⟩
      obtain ⟨parts, hparts, rfl⟩ := (ihs hqs v).2 hv
      exact ⟨u :: parts, .cons ((ih hp u).2 hu) hparts, rfl⟩

theorem exists_denotes_iff {depth : Nat} {ids : List Nat} {ps : List Pattern}
    (ih : ∀ {id p}, net.unfold depth id = some p → ∀ w, net.Denotes id w ↔ w ∈ p.language)
    (hps : ids.mapM (net.unfold depth) = some ps) (w : List String) :
    (∃ id ∈ ids, net.Denotes id w) ↔ w ∈ Pattern.sumIn (fun _ => 0) ps := by
  induction ids generalizing ps with
  | nil =>
    obtain rfl : ps = [] := by simpa using hps.symm
    exact iff_of_false (by simp) (Language.notMem_zero w)
  | cons id ids ihs =>
    obtain ⟨p, qs, rfl, hp, hqs⟩ := unfold_cons hps
    rw [List.exists_mem_cons_iff, Pattern.sumIn, Language.mem_add]
    exact or_congr (ih hp w) (ihs hqs)

/-- A node stands for the language of its pattern. -/
theorem denotes_iff_mem_language {depth id : Nat} {p : Pattern}
    (h : net.unfold depth id = some p) (w : List String) :
    net.Denotes id w ↔ w ∈ p.language := by
  induction depth generalizing id p w with
  | zero => cases h
  | succ depth ih =>
    have ih' : ∀ {id p}, net.unfold depth id = some p → ∀ w, net.Denotes id w ↔ w ∈ p.language :=
      fun hp w => ih hp w
    cases layer_of_unfold h with
    | connector hk hsilent =>
      rw [denotes_iff hk]
      rcases hsilent with rfl | rfl | rfl <;> exact (Language.mem_one w).symm
    | terminal hk =>
      rw [denotes_iff hk]
      rfl
    | sequence hk hps =>
      rw [denotes_iff hk]
      exact forall₂_denotes_iff ih' hps w
    | alternation hk hps =>
      rw [denotes_iff hk]
      exact exists_denotes_iff ih' hps w
    | @repetition inner q bounds hk hq =>
      rw [denotes_iff hk]
      show (∃ rounds : List (List String), _ ∧ _ ∧ _) ↔ ∃ n, bounds.Allows n ∧ w ∈ q.language ^ n
      simp only [Language.mem_pow, ih' hq]
      constructor
      · rintro ⟨rounds, htimes, hrounds, rfl⟩
        exact ⟨rounds.length, htimes, rounds, rfl, rfl, hrounds⟩
      · rintro ⟨n, htimes, rounds, rfl, rfl, hrounds⟩
        exact ⟨rounds, htimes, hrounds, rfl⟩
    | reference hk =>
      rw [denotes_iff hk]
      exact iff_of_false False.elim (Language.notMem_zero w)

/-! ## Automata -/

/-- If the tree below a node can be lowered, its automaton is built, and carries from the start to
the end just what the node stands for. -/
theorem accepts_automatonBelow_iff_denotes {top : Nat} (h : net.Lowerable top) :
    ∃ a net', Edit.automatonBelow top net = .ok a net' ∧
      ∀ w, a.Accepts w ↔ net.Denotes top w := by
  obtain ⟨p, hp, hclosed⟩ := h.exists_pattern?
  obtain ⟨a, net', ha, haccepts, -⟩ := Edit.gives_automatonBelow hp hclosed
  refine ⟨a, net', ha, fun w => ?_⟩
  rw [haccepts w, denotes_iff_mem_language hp]

/-- The word of one list stands twice in a sequence that also has an empty item, the sequence is
repeated twice although its upper bound is one, and the list stands a third time as an alternative
of its own, beside an alternation without alternatives. -/
theorem accepts_automatonBelow_iff_denotes_of_shared :
    let net : Network := ⟨#[⟨.terminal "a", #[]⟩, ⟨.sequence [], #[]⟩, ⟨.alternation [], #[]⟩,
      ⟨.sequence [0, 1, 0], #[]⟩, ⟨.repetition 3 ⟨2, some 1⟩, #[]⟩, ⟨.alternation [4, 0, 2], #[]⟩]⟩
    net.Lowerable 5 ∧ ∃ a net', Edit.automatonBelow 5 net = .ok a net' ∧
      ∀ w, a.Accepts w ↔ net.Denotes 5 w := by
  intro net
  have h : net.Lowerable 5 := by
    refine .of_lt (by decide) (by decide) fun id hid rule => ?_
    have hid : id < 6 := hid
    interval_cases id <;> exact fun hrule => nomatch hrule
  exact ⟨h, accepts_automatonBelow_iff_denotes h⟩

end Network

end PhraseSearch
