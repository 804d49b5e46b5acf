import PhraseSearch.Grammar.InPlace
import PhraseSearch.Proofs.Automaton.Twins
import PhraseSearch.Proofs.Grammar.Language
import PhraseSearch.Proofs.Grammar.Rounds
import PhraseSearch.Proofs.Rule.Settling

/-!
# Which grammars can be inlined

When inlining ends, no open rule refers to a closed one.  So if a rule were open and yet settled, it
would refer to a rule that is open and settled too, and so on, without an end; and a closed rule has
been expanded, which only settled names can be.  Whether a rule stays open thus depends on the rules
alone, not on what has been inlined before.

    the rules that stay open are those that are not settled            (Ended.mem_rest_iff)
    inlining once more has the same outcome                            (inline_inlined_eq)
    inlined rules have automata                                        (exists_compile_of_inline)
    it does not matter in which network they are built                 (compileInPlace_eq)
    inlining succeeds iff all references lead to rules and none back   (inline_spec)
-/

namespace PhraseSearch.Grammar

open Network Network.Edit

variable {g : Grammar} {rules : List Rule} {network network' : Network} {depth depth' : Nat}
  {trees : NameMap Nat} {roots rest rest' : List (String × Nat)}
  {base pattern pattern' : String → Pattern}

/-! ## Open rules -/

/-- What holds of the network and of the open roots when inlining has come to an end. -/
abbrev Ended (rules : List Rule) (network : Network) (rest : List (String × Nat)) (depth : Nat)
    (pattern : String → Pattern) : Prop :=
  Underway network (closedRoots network (ofRules rules).roots) (ofRules rules).roots rest
    (Pattern.ofRules rules) depth pattern

theorem Underway.mem_others (h : Underway network trees roots rest base depth pattern)
    {e : String × Nat} : e ∈ rest ↔ e ∈ roots ∧ trees.get? e.1 = none := by
  rw [h.others_eq, List.mem_filter, Option.isNone_iff_eq_none]

/-- A settled rule is closed in the end: otherwise it would refer to an open rule. -/
theorem Ended.not_mem_rest (h : Ended rules network rest depth pattern) {name : String}
    (hsettled : Rule.Settled rules name) : name ∉ rest.map Prod.fst := by
  refine hsettled.induction (P := (· ∉ rest.map Prod.fst)) fun name hsettled ih hname => ?_
  obtain ⟨e, he, rfl⟩ := List.mem_map.1 hname
  obtain ⟨hroot, hopen⟩ := h.mem_others.1 he
  have hne := (h.tended.get?_closedRoots_eq_none hroot).1 hopen
  obtain ⟨target, htarget⟩ := List.exists_mem_of_ne_nil _ hne
  have hrefers : Rule.Refers rules e.1 target :=
    Pattern.mem_references_ofRules.1 ((h.tended.expanding e hroot).mem_references htarget)
  obtain ⟨hdefined, -⟩ := hsettled target (.step hrefers (.refl target))
  obtain ⟨e', he', rfl⟩ := List.mem_map.1 (mem_roots_ofRules.2 hdefined)
  refine ih e'.1 hrefers (List.mem_map_of_mem (h.mem_others.2 ⟨he', ?_⟩))
  exact h.away e he e'.1 htarget

/-- The rules that stay open are those from which references lead to an undefined name or into a
cycle. -/
theorem Ended.mem_rest_iff (h : Ended rules network rest depth pattern) {e : String × Nat} :
    e ∈ rest ↔ e ∈ (ofRules rules).roots ∧ ¬ Rule.Settled rules e.1 := by
  constructor
  · intro he
    exact ⟨(h.mem_others.1 he).1, fun hsettled =>
      h.not_mem_rest hsettled (List.mem_map_of_mem he)⟩
  · rintro ⟨hroot, hunsettled⟩
    refine h.mem_others.2 ⟨hroot, ?_⟩
    rw [h.tended.get?_closedRoots_eq_none hroot]
    intro hclosed
    exact hunsettled ((h.tended.expands hroot hclosed).settled fun _ => mem_roots_ofRules.1)

theorem Ended.mem_names_iff (h : Ended rules network rest depth pattern) {name : String} :
    name ∈ (NameMap.ofList rest).names ↔ Rule.Defined rules name ∧ ¬ Rule.Settled rules name := by
  rw [NameMap.mem_names_ofList]
  constructor
  · intro hname
    obtain ⟨e, he, rfl⟩ := List.mem_map.1 hname
    obtain ⟨hroot, hunsettled⟩ := h.mem_rest_iff.1 he
    exact ⟨mem_roots_ofRules.1 (List.mem_map_of_mem hroot), hunsettled⟩
  · rintro ⟨hdefined, hunsettled⟩
    obtain ⟨e, he, rfl⟩ := List.mem_map.1 (mem_roots_ofRules.2 hdefined)
    exact List.mem_map_of_mem (h.mem_rest_iff.2 ⟨he, hunsettled⟩)

theorem Ended.isEmpty_rest_iff (h : Ended rules network rest depth pattern) :
    rest = [] ↔ ∀ name, Rule.Defined rules name → Rule.Settled rules name := by
  rw [List.eq_nil_iff_forall_not_mem]
  constructor
  · intro hnone name hdefined
    obtain ⟨e, he, rfl⟩ := List.mem_map.1 (mem_roots_ofRules.2 hdefined)
    by_contra hunsettled
    exact hnone e (h.mem_rest_iff.2 ⟨he, hunsettled⟩)
  · intro hall e he
    obtain ⟨hroot, hunsettled⟩ := h.mem_rest_iff.1 he
    exact hunsettled (hall e.1 (mem_roots_ofRules.1 (List.mem_map_of_mem hroot)))

/-- Which rules stay open does not depend on where inlining began. -/
theorem Ended.rest_eq (h : Ended rules network rest depth pattern)
    (h' : Ended rules network' rest' depth' pattern') : rest = rest' := by
  rw [h.others_eq, h'.others_eq]
  refine List.filter_congr fun e he => ?_
  rw [Bool.eq_iff_iff, Option.isNone_iff_eq_none, Option.isNone_iff_eq_none]
  have hmem := (h.mem_rest_iff (e := e)).trans h'.mem_rest_iff.symm
  rw [h.mem_others, h'.mem_others, and_iff_right he, and_iff_right he] at hmem
  exact hmem

/-! ## Inlining again and again -/

theorem exists_tended_ofRules (rules : List Rule) : ∃ depth pattern,
    Tended (ofRules rules).network (ofRules rules).roots (Pattern.ofRules rules) depth pattern := by
  obtain ⟨depth, hrooted⟩ := rooted_ofRules rules
  exact ⟨depth, _, hrooted.tended⟩

theorem inlined_succ (g : Grammar) (times : Nat) :
    g.inlined (times + 1) = (g.inlined times).inline.2 :=
  Function.iterate_succ_apply' _ times g

/-- A grammar that has been inlined some times has gone through some rounds. -/
theorem exists_inlined_eq (rules : List Rule) (times : Nat) : ∃ n depth pattern,
    (ofRules rules).inlined times =
      ⟨(round (ofRules rules).roots)^[n] (ofRules rules).network, (ofRules rules).roots⟩ ∧
    Tended ((ofRules rules).inlined times).network (ofRules rules).roots (Pattern.ofRules rules)
      depth pattern := by
  induction times with
  | zero =>
    obtain ⟨depth, pattern, h⟩ := exists_tended_ofRules rules
    exact ⟨0, depth, pattern, rfl, h⟩
  | succ times ih =>
    obtain ⟨n, depth, pattern, hn, h⟩ := ih
    rw [hn] at h
    obtain ⟨network, rest, m, depth', pattern', -, hinline, hended, hm, -⟩ := exists_inline_eq h
    rw [inlined_succ, hn, hinline]
    refine ⟨m + n, depth', pattern', ?_, hended.tended⟩
    rw [hm, Function.iterate_add_apply]

/-- Inlining for the first time, or once more: rounds, until no more rules are closed. -/
theorem exists_inline_inlined (rules : List Rule) (times : Nat) : ∃ rest depth pattern,
    ((ofRules rules).inlined times).inline.1 =
      (if rest.isEmpty then .ok () else .error (.recursion (NameMap.ofList rest).names)) ∧
    RoundsTo (ofRules rules).roots 0 ((ofRules rules).inlined times).network
      (((ofRules rules).inlined (times + 1)).network, rest) ∧
    Ended rules ((ofRules rules).inlined (times + 1)).network rest depth pattern := by
  obtain ⟨n, depth, pattern, hn, h⟩ := exists_inlined_eq rules times
  rw [hn] at h
  obtain ⟨network, rest, -, depth', pattern', -, hinline, hended, -, hrounds⟩ := exists_inline_eq h
  rw [inlined_succ, hn, hinline]
  exact ⟨rest, depth', pattern', rfl, hrounds, hended⟩

theorem inline_inlined_eq (rules : List Rule) (times : Nat) :
    ((ofRules rules).inlined times).inline.1 = (ofRules rules).inline.1 := by
  obtain ⟨rest, depth, pattern, hinline, -, hended⟩ := exists_inline_inlined rules times
  obtain ⟨rest', depth', pattern', hinline', -, hended'⟩ := exists_inline_inlined rules 0
  rw [hinline, hended.rest_eq hended', ← hinline']
  rfl

/-! ## Automata of inlined rules -/

/-- The automaton of the first of some inlined rules is built, and is that of its expansion, in a
network of its own as well as in that of the rules. -/
theorem exists_compile_of_inline {name : String} {top : Nat}
    (h : Tended g.network g.roots base depth pattern) (hroots : g.roots = (name, top) :: roots)
    (hok : g.inline.1 = .ok ()) : ∃ p a, Pattern.Expands base (g.roots.map Prod.fst) name p ∧
      p.compile = .ok a ∧ g.compile = .ok a ∧ g.compileInPlace = .ok a := by
  cases hinline : g.inline with
  | mk result g' =>
    rw [hinline] at hok
    obtain rfl : result = .ok () := hok
    obtain ⟨depth', pattern', h', hsame, hexpands⟩ := expands_of_inline h hinline
    have htop : (name, top) ∈ g.roots := hroots ▸ List.mem_cons_self
    have hpattern := (h'.rooted.tree _ htop).pattern?_eq
    have hclosed := (hexpands _ htop).references_eq_nil
    obtain ⟨a, ha, -⟩ := Pattern.exists_compile hclosed
    obtain ⟨a', net, ha', -⟩ := gives_automatonBelow hpattern hclosed
    obtain rfl : a' = a := Pattern.eq_of_compile hpattern ha ha'
    rw [hroots] at hsame
    refine ⟨pattern' name, a', hexpands _ htop, ha, ?_, ?_⟩
    · rw [compile, hinline]
      simp only [hsame, hpattern, ha]
      rfl
    · rw [compileInPlace, hinline]
      simp only [hsame]
      rw [ha']

/-- It does not matter in which network the first rule is compiled. -/
theorem compileInPlace_eq (h : Tended g.network g.roots base depth pattern) :
    g.compileInPlace = g.compile := by
  cases hok : g.inline.1 with
  | error fault =>
    have hinline : g.inline = (.error fault, g.inline.2) := by rw [← hok]
    rw [compileInPlace, compile, hinline]
  | ok _ =>
    have hinline : g.inline = (.ok (), g.inline.2) := by rw [← hok]
    cases hroots : g.roots with
    | nil =>
      have hroots' : g.inline.2.roots = [] := hroots
      rw [compileInPlace, compile, hinline]
      simp only [hroots']
    | cons e roots =>
      obtain ⟨p, a, -, -, ha, ha'⟩ := exists_compile_of_inline h hroots hok
      rw [ha, ha']

/-! ## Which grammars can be inlined -/

/-- Inlining the rules of some lines, for the first time or once more, goes through rounds until no
more rules are closed.  It succeeds just if all references lead to rules and none leads back to
where it comes from, and then automata are built; otherwise it names, in ascending order, the rules
from which references lead to an undefined name or into a cycle.  A rule that has been closed at any
time is never changed after that. -/
theorem inline_spec {lines : List String} (h : ofLines lines = .ok g) :
    ∃ rules, rulesOf lines = .ok rules ∧
      (∀ times, ∃ n rest,
        (g.inlined times).network = (round g.roots)^[n] g.network ∧
        RoundsTo g.roots 0 (g.inlined times).network
          ((g.inlined (times + 1)).network, rest) ∧
        (g.inlined times).inline.1 =
          (if rest.isEmpty then .ok () else .error (.recursion (NameMap.ofList rest).names)) ∧
        (g.inlined times).inline.1 = g.inline.1) ∧
      (g.inline.1 = .ok () ↔
        (∀ name target, Rule.Refers rules name target → Rule.Defined rules target) ∧
          ∀ name, ¬ Rule.OnCycle rules name) ∧
      (g.inline.1 ≠ .ok () → ∃ names, g.inline.1 = .error (.recursion names) ∧
        names.Pairwise (· < ·) ∧ ∀ name, name ∈ names ↔ Rule.Defined rules name ∧
          ∃ target, Rule.LeadsTo rules name target ∧
            (¬ Rule.Defined rules target ∨ Rule.OnCycle rules target)) ∧
      (∀ rounds grafts rounds' grafts', rounds < rounds' ∨ rounds = rounds' ∧ grafts ≤ grafts' →
        Keeps g.roots (g.progress rounds grafts) (g.progress rounds' grafts')) ∧
      (g.inline.1 = .ok () → ∀ times, ∃ a, (g.inlined times).compileInPlace = .ok a ∧
        (g.inlined times).compile = .ok a) := by
  obtain ⟨rules, hrules, rfl⟩ := exists_of_ofLines h
  obtain ⟨rest, depth, pattern, hinline, -, hended⟩ := exists_inline_inlined rules 0
  have hinline : (ofRules rules).inline.1 =
      if rest.isEmpty then .ok () else .error (.recursion (NameMap.ofList rest).names) := hinline
  have hok : (ofRules rules).inline.1 = .ok () ↔ rest = [] := by
    rw [hinline]
    cases rest <;> simp
  refine ⟨rules, hrules, fun times => ?_, ?_, fun hfail => ?_, ?_, fun hsuccess times => ?_⟩
  · obtain ⟨n, -, -, hn, -⟩ := exists_inlined_eq rules times
    obtain ⟨rest', -, -, hinline', hrounds, -⟩ := exists_inline_inlined rules times
    exact ⟨n, rest', by rw [hn], hrounds, hinline', inline_inlined_eq rules times⟩
  · rw [hok, hended.isEmpty_rest_iff, Rule.forall_settled_iff]
  · rw [ne_eq, hok] at hfail
    refine ⟨(NameMap.ofList rest).names, ?_, NameMap.names_pairwise _, fun name => ?_⟩
    · rw [hinline, if_neg (by simpa using hfail)]
    · rw [hended.mem_names_iff, Rule.not_settled_iff]
  · intro rounds grafts rounds' grafts' hlater
    obtain ⟨depth, pattern, htended⟩ := exists_tended_ofRules rules
    exact keeps_progress htended hlater
  · obtain ⟨n, depth, pattern, hn, htended⟩ := exists_inlined_eq rules times
    have hroots : ((ofRules rules).inlined times).roots = (ofRules rules).roots := by rw [hn]
    rw [← hroots] at htended
    obtain ⟨-, hne⟩ := readFrom_of_rulesOf hrules
    obtain ⟨rule, rest, rfl⟩ := List.exists_cons_of_ne_nil hne
    obtain ⟨root, others, hcons⟩ := roots_ofRules_cons rule rest
    have hagain : ((ofRules (rule :: rest)).inlined times).inline.1 = .ok () := by
      rw [inline_inlined_eq, hsuccess]
    obtain ⟨p, a, -, -, ha, ha'⟩ :=
      exists_compile_of_inline htended (hroots.trans hcons) hagain
    exact ⟨a, ha', ha⟩

/-- Of four rules, the last one is closed; the others lead into a cycle or to a name that is not
defined. -/
theorem inline_spec_of_four_rules : ∃ g,
    ofLines ["phrase -> <det> thing", "thing -> phrase | word", "rest -> other", "word -> <noun>"] =
      .ok g ∧ g.inline.1 = .error (.recursion ["phrase", "rest", "thing"]) ∧
    ∀ times, (g.inlined times).inline.1 = g.inline.1 := by
  have hfail : ((ofLines ["phrase -> <det> thing", "thing -> phrase | word", "rest -> other",
      "word -> <noun>"]).map fun g => g.inline.1) =
        .ok (.error (.recursion ["phrase", "rest", "thing"])) := by
    decide +kernel
  cases h : ofLines ["phrase -> <det> thing", "thing -> phrase | word", "rest -> other",
      "word -> <noun>"] with
  | error fault =>
    rw [h] at hfail
    cases hfail
  | ok g =>
    rw [h] at hfail
    obtain ⟨rules, -, hrounds, -⟩ := inline_spec h
    refine ⟨g, rfl, Except.ok.inj hfail, fun times => ?_⟩
    obtain ⟨_, _, -, -, -, hsame⟩ := hrounds times
    exact hsame

end PhraseSearch.Grammar
