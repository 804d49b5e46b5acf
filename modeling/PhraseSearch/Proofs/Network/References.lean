import PhraseSearch.Proofs.Network.Descendants
import PhraseSearch.Proofs.Network.Lowering

/-!
# Lowering trees with references

Lowering goes through a tree from left to right and fails at the first reference that it meets.
What stands to the left of it has been lowered by then, between ends that are new as well, so the
nodes that were there before are as they were.

    lowering fails at the first reference                              (fails_lowerNode)
    it succeeds where there is none, and only adds nodes               (lowerBelow_spec)
-/

namespace PhraseSearch.Network

/-! ## Edits that fail -/

namespace Edit

variable {α β : Type} {base net : Network} {fault : Fault}

/-- Whether an edit fails for some reason, and leaves a network of which `post` holds. -/
def Fails (x : Edit α) (net : Network) (fault : Fault) (post : Network → Prop) : Prop :=
  ∃ net', x net = .error fault net' ∧ post net'

theorem fails_throw {post : Network → Prop} (h : post net) :
    Fails (throw fault : Edit α) net fault post := ⟨net, rfl, h⟩

/-- An edit fails if its first part does. -/
theorem Fails.bind {x : Edit α} {f : α → Edit β} {post : Network → Prop}
    (h : Fails x net fault post) : Fails (x >>= f) net fault post := by
  obtain ⟨net', hx, hpost⟩ := h
  refine ⟨net', ?_, hpost⟩
  show EStateM.bind x f net = _
  rw [EStateM.bind, hx]

/-- An edit fails if its first part succeeds and the second one fails. -/
theorem Gives.bind_fails {x : Edit α} {f : α → Edit β} {post : Network → Prop}
    (h : Gives x net fun a mid => Fails (f a) mid fault post) : Fails (x >>= f) net fault post := by
  obtain ⟨a, mid, hx, net', hf, hpost⟩ := h
  refine ⟨net', ?_, hpost⟩
  show EStateM.bind x f net = _
  rw [EStateM.bind, hx]
  exact hf

/-! ## Lowering up to a reference -/

variable {depth id last start finish : Nat} {ids : List Nat} {p : Pattern} {ps : List Pattern}
  {rule : String} {names rest : List String}

/-- Whether the lowering of trees of some depth fails at their first references. -/
def FailsToLower (depth : Nat) : Prop :=
  ∀ net id p rule rest, net.unfold depth id = some p → p.references = rule :: rest →
    Fails (lowerNode depth id) net (.openReference rule) (Extends net)

/-- The first reference stands in a tree, or in what is lowered after it. -/
theorem fails_lowerNode_bind {f : Segment → Edit β} (hlower : FailsToLower depth)
    (hext : Extends base net) (hp : base.unfold depth id = some p)
    (hrefs : p.references ++ names = rule :: rest)
    (hf : ∀ segment mid, Extends net mid → segment.entry ∈ Set.Ico net.size mid.size →
      segment.exit ∈ Set.Ico net.size mid.size → names = rule :: rest →
      Fails (f segment) mid (.openReference rule) (Extends base)) :
    Fails (lowerNode depth id >>= f) net (.openReference rule) (Extends base) := by
  have hp' := unfold_of_extends hext hp
  cases hfirst : p.references with
  | nil =>
    rw [hfirst, List.nil_append] at hrefs
    refine ((gives_lowerNode depth net id p hp' hfirst).mono ?_).bind_fails
    rintro segment mid ⟨hmid, hsegment, -⟩
    exact hf segment mid hmid hsegment.entry hsegment.exit hrefs
  | cons first others =>
    rw [hfirst, List.cons_append, List.cons.injEq] at hrefs
    obtain ⟨net', hfails, hnet'⟩ := hlower net id p first others hp' hfirst
    rw [hrefs.1] at hfails
    exact Fails.bind ⟨net', hfails, hext.trans hnet'⟩

theorem fails_lowerSequence (hlower : FailsToLower depth) (hext : Extends base net)
    (hps : ids.mapM (base.unfold depth) = some ps) (hrefs : Pattern.allReferences ps = rule :: rest)
    (hlast : last ∈ Set.Ico base.size net.size) :
    Fails (lowerSequence (lowerNode depth) ids last) net (.openReference rule) (Extends base) := by
  induction ids generalizing net last ps with
  | nil =>
    obtain rfl : ps = [] := by simpa using hps.symm
    cases hrefs
  | cons id ids ih =>
    obtain ⟨p, qs, rfl, hp, hqs⟩ := unfold_cons hps
    refine fails_lowerNode_bind hlower hext hp hrefs fun segment mid hmid _ hexit hrefs => ?_
    have hlt : last < mid.size := Nat.lt_of_lt_of_le hlast.2 hmid.size_le
    refine (gives_link hlt ?_).bind_fails
    refine ih ((hext.trans hmid).update hlast.1 _) hqs hrefs ⟨?_, ?_⟩
    · exact Nat.le_trans hext.size_le hexit.1
    · rw [size_update]
      exact hexit.2

theorem fails_lowerAlternatives (hlower : FailsToLower depth) (hext : Extends base net)
    (hps : ids.mapM (base.unfold depth) = some ps) (hrefs : Pattern.allReferences ps = rule :: rest)
    (hstart : start ∈ Set.Ico base.size net.size) :
    Fails (lowerAlternatives (lowerNode depth) ids start finish) net (.openReference rule)
      (Extends base) := by
  induction ids generalizing net ps with
  | nil =>
    obtain rfl : ps = [] := by simpa using hps.symm
    cases hrefs
  | cons id ids ih =>
    obtain ⟨p, qs, rfl, hp, hqs⟩ := unfold_cons hps
    refine fails_lowerNode_bind hlower hext hp hrefs fun segment mid hmid _ hexit hrefs => ?_
    have hlt : start < mid.size := Nat.lt_of_lt_of_le hstart.2 hmid.size_le
    refine (gives_link hlt ?_).bind_fails
    have hexit' : segment.exit < (mid.update start (·.link segment.entry)).size := by
      rw [size_update]
      exact hexit.2
    refine (gives_link hexit' ?_).bind_fails
    have hge : base.size ≤ segment.exit := Nat.le_trans hext.size_le hexit.1
    refine ih (((hext.trans hmid).update hstart.1 _).update hge _) hqs hrefs ⟨hstart.1, ?_⟩
    rw [size_update, size_update]
    exact hlt

/-- Lowering fails at the first reference, and older nodes are as they were. -/
theorem fails_lowerNode (depth : Nat) : FailsToLower depth := by
  induction depth with
  | zero =>
    intro net id p rule rest hp
    cases hp
  | succ depth ih =>
    intro net id p rule rest hp hrefs
    have hsize : ((net.push .join).push .join).size = net.size + 2 := by
      rw [size_push, size_push]
    have hext : Extends net ((net.push .join).push .join) :=
      (extends_push net _).trans (extends_push _ _)
    have hstart : net.size ∈ Set.Ico net.size ((net.push .join).push .join).size := by
      rw [hsize]
      exact ⟨Nat.le_refl _, by omega⟩
    cases layer_of_unfold hp with
    | connector => cases hrefs
    | terminal => cases hrefs
    | sequence hkind hps =>
      refine (gives_kind hkind ?_).bind_fails
      refine (gives_addNode (gives_addNode ?_).bind_fails).bind_fails
      exact (fails_lowerSequence ih hext hps hrefs hstart).bind
    | alternation hkind hps =>
      refine (gives_kind hkind ?_).bind_fails
      refine (gives_addNode (gives_addNode ?_).bind_fails).bind_fails
      exact (fails_lowerAlternatives ih hext hps hrefs hstart).bind
    | @repetition inner q bounds hkind hq =>
      refine (gives_kind hkind ?_).bind_fails
      refine (gives_addNode (gives_addNode ?_).bind_fails).bind_fails
      have hrefs : q.references ++ [] = rule :: rest := (List.append_nil _).trans hrefs
      refine fails_lowerNode_bind ih hext hq hrefs fun _ _ _ _ _ hnone => ?_
      cases hnone
    | reference hkind =>
      refine (gives_kind hkind ?_).bind_fails
      cases hrefs
      exact fails_throw (.refl net)

end Edit

/-! ## References -/

variable {net : Network}

/-- The name that is met first comes first. -/
theorem exists_foldl_addName (first : String) (met names : List String) :
    ∃ rest, names.foldl addName (first :: met) = first :: rest := by
  induction names generalizing met with
  | nil => exact ⟨met, rfl⟩
  | cons name names ih =>
    rw [List.foldl_cons, addName]
    split
    · exact ih met
    · exact ih (met ++ [name])

theorem exists_references_of_cons {id : Nat} {p : Pattern} {rule : String} {rest : List String}
    (hp : net.pattern? id = some p) (hrefs : p.references = rule :: rest) :
    ∃ names, net.references id = .ok (rule :: names) := by
  obtain ⟨names, hnames⟩ := exists_foldl_addName rule [] rest
  refine ⟨names, ?_⟩
  rw [references, collectReferences_of_unfold hp, hrefs, List.foldl_cons, ← hnames]
  rfl

/-- A tree is lowered unless it has a reference: then lowering fails at the first.  Either way the
nodes that were there before are as they were.  What is lowered can be entered from no new node, is
left at a node without edges, and leads to new nodes only, which are connectors and words and have
no edge twice. -/
theorem lowerBelow_spec {top : Nat} (h : net.HasTree top) :
    ∃ names, net.references top = .ok names ∧
      (∀ fault, (∃ net', Edit.lowerBelow top net = .error fault net') ↔
        ∃ rule, names.head? = some rule ∧ fault = .openReference rule) ∧
      (∀ fault net', Edit.lowerBelow top net = .error fault net' → Extends net net') ∧
      ∀ segment net', Edit.lowerBelow top net = .ok segment net' → Extends net net' ∧
        (∀ n id, net'.Walk n segment.entry id → id ∈ Set.Ico net.size net'.size ∧
          net'.Simple id ∧ (net'.targets id).Nodup) ∧
        segment.exit ∈ Set.Ico net.size net'.size ∧ net'.targets segment.exit = [] ∧
        ∀ id ∈ Set.Ico net.size net'.size, ¬ net'.Edge id segment.entry := by
  obtain ⟨p, hp⟩ := h.exists_pattern?
  have hlower : Edit.lowerBelow top net = Edit.lowerNode (net.size + 1) top net := rfl
  rw [hlower]
  cases hrefs : p.references with
  | cons rule rest =>
    obtain ⟨names, hnames⟩ := exists_references_of_cons hp hrefs
    obtain ⟨net', hfails, hext⟩ := Edit.fails_lowerNode _ net top p rule rest hp hrefs
    rw [hfails]
    refine ⟨rule :: names, hnames, fun fault => ⟨?_, ?_⟩, ?_, ?_⟩
    · rintro ⟨_, ⟨⟩⟩
      exact ⟨rule, rfl, rfl⟩
    · rintro ⟨_, ⟨⟩, rfl⟩
      exact ⟨net', rfl⟩
    · rintro _ _ ⟨⟩
      exact hext
    · rintro _ _ ⟨⟩
  | nil =>
    have hnames : net.references top = .ok [] := by
      rw [references, collectReferences_of_unfold hp, hrefs]
      rfl
    obtain ⟨segment, net', hgives, hext, hwithin, -⟩ :=
      Edit.gives_lowerNode _ net top p hp hrefs
    rw [hgives]
    refine ⟨[], hnames, fun fault => ⟨?_, ?_⟩, ?_, ?_⟩
    · rintro ⟨_, ⟨⟩⟩
    · rintro ⟨_, ⟨⟩, -⟩
    · rintro _ _ ⟨⟩
    · rintro _ _ ⟨⟩
      refine ⟨hext, fun n id hwalk => ?_, hwithin.exit, hwithin.sink, hwithin.source⟩
      have hid := hwalk.mem_of_closed hwithin.region.closed hwithin.entry
      exact ⟨hid, hwithin.simple id hid, hwithin.region.nodup id hid⟩

/-- A word stands twice before a repeated reference, which a second reference follows; without the
two the sequence is lowered, and its repetition is a loop. -/
theorem lowerBelow_spec_of_two_references :
    let net : Network := ⟨#[⟨.terminal "a", #[7]⟩, ⟨.reference "x", #[]⟩, ⟨.reference "y", #[0, 0]⟩,
      ⟨.repetition 1 ⟨0, some 0⟩, #[]⟩, ⟨.sequence [0, 0, 3, 2, 1], #[]⟩,
      ⟨.repetition 0 ⟨1, none⟩, #[]⟩, ⟨.sequence [5, 0], #[]⟩]⟩
    net.HasTree 4 ∧ net.HasTree 6 ∧ net.references 4 = .ok ["x", "y"] ∧
      (∃ net', Edit.lowerBelow 4 net = .error (.openReference "x") net' ∧ Extends net net') ∧
      ∃ segment net', Edit.lowerBelow 6 net = .ok segment net' ∧ Extends net net' ∧
        ∀ id ∈ Set.Ico net.size net'.size, ¬ net'.Edge id segment.entry := by
  intro net
  have hlt : ∀ id < net.size, ∀ kind ∈ net.kind? id, ∀ child ∈ kind.children, child < id := by
    decide
  have hfirst : net.HasTree 4 := .of_lt (by decide) hlt
  have hsecond : net.HasTree 6 := .of_lt (by decide) hlt
  have hnames : net.references 4 = .ok ["x", "y"] := by decide
  have hnone : net.references 6 = .ok [] := by decide
  refine ⟨hfirst, hsecond, hnames, ?_, ?_⟩
  · obtain ⟨names, heq, hfault, hframe, -⟩ := lowerBelow_spec hfirst
    obtain rfl := Except.ok.inj (hnames.symm.trans heq)
    obtain ⟨net', hfails⟩ := (hfault _).2 ⟨"x", rfl, rfl⟩
    exact ⟨net', hfails, hframe _ _ hfails⟩
  · obtain ⟨names, heq, hfault, -, hdone⟩ := lowerBelow_spec hsecond
    obtain rfl := Except.ok.inj (hnone.symm.trans heq)
    cases hlower : Edit.lowerBelow 6 net with
    | error fault net' =>
      obtain ⟨_, ⟨⟩, -⟩ := (hfault fault).1 ⟨net', hlower⟩
    | ok segment net' =>
      obtain ⟨hext, -, -, -, hsource⟩ := hdone segment net' hlower
      exact ⟨segment, net', rfl, hext, hsource⟩

end PhraseSearch.Network
