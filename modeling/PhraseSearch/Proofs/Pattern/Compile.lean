import PhraseSearch.Grammar.Compile
import PhraseSearch.Proofs.Automaton.Totality
import PhraseSearch.Proofs.Automaton.Trim
import PhraseSearch.Proofs.Network.Lowering
import PhraseSearch.Proofs.Network.Planting

/-!
# Automata of patterns

A pattern without references has an automaton, which accepts the language of the pattern: the tree
that is planted has that pattern, what it is lowered to reads its language, and the connectors do
not count.

    the automaton of a tree is built and accepts its language          (gives_automatonBelow)
    the automaton of a pattern is built and accepts its language       (exists_compile)
    the automaton of a viable pattern is well formed and trim          (trim_of_compile)
-/

namespace PhraseSearch

/-! ## Branches -/

namespace Pattern

/-- The patterns of what hangs directly off the start. -/
def branches : Pattern → List Pattern
  | alternation alternatives => alternatives
  | p => [p]

theorem allReferences_branches (p : Pattern) : allReferences p.branches = p.references := by
  cases p with
  | alternation alternatives => rfl
  | _ => exact List.append_nil _

theorem sumIn_branches (env : String → Language String) (p : Pattern) :
    sumIn env p.branches = p.languageIn env := by
  cases p with
  | alternation alternatives => rfl
  | _ => exact add_zero _

theorem Viable.branches {p : Pattern} (h : p.Viable) :
    p.branches ≠ [] ∧ AllViable p.branches := by
  cases p with
  | alternation alternatives => exact h
  | _ => exact ⟨List.cons_ne_nil _ _, h, trivial⟩

end Pattern

namespace Network.Edit

variable {net : Network}

/-- The trees that hang off the start have the branches of the whole pattern. -/
theorem mapM_branches {depth top : Nat} {k : NodeKind} {p : Pattern}
    (hk : net.kind? top = some k) (hp : net.unfold depth top = some p) :
    (branches k top).mapM (net.unfold depth) = some p.branches := by
  have hone : branches k top = [top] → p.branches = [p] →
      (branches k top).mapM (net.unfold depth) = some p.branches := by
    intro htop hbranches
    rw [htop, hbranches, List.mapM_cons, hp]
    rfl
  cases depth with
  | zero => cases hp
  | succ depth =>
    cases layer_of_unfold hp with
    | alternation hkind hps =>
      obtain rfl := Option.some.inj (hk.symm.trans hkind)
      exact mapM_eq_of_forall (fun _ _ => unfold_mono (Nat.le_succ depth)) hps
    | connector hkind hsilent =>
      obtain rfl := Option.some.inj (hk.symm.trans hkind)
      rcases hsilent with rfl | rfl | rfl <;> exact hone rfl rfl
    | terminal hkind =>
      obtain rfl := Option.some.inj (hk.symm.trans hkind)
      exact hone rfl rfl
    | sequence hkind =>
      obtain rfl := Option.some.inj (hk.symm.trans hkind)
      exact hone rfl rfl
    | repetition hkind =>
      obtain rfl := Option.some.inj (hk.symm.trans hkind)
      exact hone rfl rfl
    | reference hkind =>
      obtain rfl := Option.some.inj (hk.symm.trans hkind)
      exact hone rfl rfl

/-- The automaton of a tree without references is made of what has been wired between a start and an
end; if the pattern is viable, all of that leads to the end. -/
theorem gives_automatonBelow_wiring {top : Nat} {p : Pattern} (hp : net.pattern? top = some p)
    (hclosed : p.references = []) : Gives (automatonBelow top) net fun a net' => ∃ ends last,
      Wiring net net' ends (.start, .finish) net'.size last 1 p.language ∧
      net'.withoutJoins ends.entry ends.exit = .ok a ∧
      (p.Viable → ends.Live net' ends.exit) := by
  have hends : Wiring net ((net.push .start).push .finish) ⟨net.size, net.size + 1⟩
      (.start, .finish) (net.size + 2) net.size 1 0 := .start net (by simp) (by simp)
  have hsize : ((net.push .start).push .finish).size = net.size + 2 := by
    rw [size_push, size_push]
  have hdepth : net.size + 1 ≤ ((net.push .start).push .finish).size + 1 := by
    rw [hsize]
    omega
  rw [← hsize] at hends
  obtain ⟨k, -, hk, -⟩ := exists_unfold_child hp
  have hbranches := mapM_branches hk (unfold_mono hdepth hp)
  have hopen : Pattern.allReferences p.branches = [] := p.allReferences_branches.trans hclosed
  refine .bind (gives_addNode (.bind (gives_addNode (.bind (gives_get ?_)))))
  refine .bind (gives_kind (hends.extends_.kind? hk) ?_)
  rw [size_push net]
  refine .bind ((gives_lowerAlternatives (gives_lowerNode _) hbranches hopen hends
    (fun hP : p.Viable => hP.branches.2) fun _ => Wiring.live_start net _ _).mono ?_)
  rintro _ built ⟨hwired, hlive⟩
  rw [Pattern.sumIn_branches, zero_add] at hwired
  obtain ⟨a, ha⟩ := exists_withoutJoins hwired
  refine .bind (gives_get ?_)
  simp only [ha]
  exact gives_pure ⟨_, _, hwired, ha, fun hP => hlive hP (.inl hP.branches.1)⟩

/-- The automaton of a tree without references is built, and accepts the language of the tree; none
of its edges is there twice. -/
theorem gives_automatonBelow {top : Nat} {p : Pattern} (hp : net.pattern? top = some p)
    (hclosed : p.references = []) : Gives (automatonBelow top) net fun a _ =>
      (∀ w, a.Accepts w ↔ w ∈ p.language) ∧ ∀ n, (a.edges n).Nodup := by
  refine (gives_automatonBelow_wiring hp hclosed).mono ?_
  rintro a net' ⟨ends, last, hwired, ha, -⟩
  exact accepts_withoutJoins hwired ha

end Network.Edit

/-! ## Patterns -/

open Network.Planting

theorem Pattern.pattern?_plantPattern (p : Pattern) :
    (plantPattern p .empty).2.pattern? (plantPattern p .empty).1 = some p := by
  obtain ⟨depth, htree, -⟩ := (planted_plantPattern p .empty).tree
  exact htree.pattern?_eq

/-- The automaton of a pattern without references is built, and accepts the language of the
pattern; none of its edges is there twice. -/
theorem Pattern.exists_compile {p : Pattern} (hclosed : p.references = []) : ∃ a,
    p.compile = .ok a ∧ (∀ w, a.Accepts w ↔ w ∈ p.language) ∧ ∀ n, (a.edges n).Nodup := by
  obtain ⟨a, net, hbuilt, ha⟩ :=
    Network.Edit.gives_automatonBelow p.pattern?_plantPattern hclosed
  refine ⟨a, ?_, ha⟩
  rw [Pattern.compile]
  cases hplant : plantPattern p .empty with
  | mk top planted =>
    rw [hplant] at hbuilt
    simp only [hbuilt]

theorem Pattern.trim_of_compile {p : Pattern} {a : Automaton} (hclosed : p.references = [])
    (hviable : p.Viable) (h : p.compile = .ok a) : a.WellFormed ∧ a.Trim := by
  obtain ⟨b, net, hbuilt, ends, last, hwired, hb, hlive⟩ :=
    Network.Edit.gives_automatonBelow_wiring p.pattern?_plantPattern hclosed
  rw [Pattern.compile] at h
  cases hplant : plantPattern p .empty with
  | mk top planted =>
    rw [hplant] at hbuilt
    simp only [hplant, hbuilt] at h
    obtain rfl : b = a := Except.ok.inj h
    exact ⟨Network.wellFormed_of_withoutJoins hwired hb,
      Network.trim_of_withoutJoins hwired (hlive hviable) hb⟩

theorem Pattern.accepts_compile {p : Pattern} {a : Automaton} (hclosed : p.references = [])
    (h : p.compile = .ok a) : (∀ w, a.Accepts w ↔ w ∈ p.language) ∧ ∀ n, (a.edges n).Nodup := by
  obtain ⟨b, hb, haccepts⟩ := Pattern.exists_compile hclosed
  rw [hb] at h
  exact Except.ok.inj h ▸ haccepts

end PhraseSearch
