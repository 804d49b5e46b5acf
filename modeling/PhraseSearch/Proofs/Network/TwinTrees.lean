import PhraseSearch.Network.Lower
import PhraseSearch.Proofs.Network.Twins

/-!
# Lowering side by side

Trees of one pattern are lowered to twin segments, wherever they stand and whatever else is in their
networks: what is built depends on the pattern, and new nodes are made in the same order.

    repetitions of twin templates are twins                            (both_lowerRepetition)
    trees of one pattern are lowered to twins                          (both_lowerNode)
-/

namespace PhraseSearch.Network.Edit

/-! ## Repetitions -/

variable {base base' net net' : Network} {i j : Nat}
  {template template' copy copy' : Segment} {last last' finish finish' times : Nat}

theorem both_appendCopies (h : Alike base base' net net')
    (htemplate : TwinSegments base base' template template')
    (hcopy : TwinSegments base base' copy copy') (hlast : Twins base base' last last') :
    Both (appendCopies template times last copy) (appendCopies template' times last' copy') net net'
      fun out mid out' mid' => Alike base base' mid mid' ∧ Twins base base' out.1 out'.1 ∧
        TwinSegments base base' out.2 out'.2 := by
  induction times generalizing net net' copy copy' last last' with
  | zero => exact both_pure ⟨h, hlast, hcopy⟩
  | succ times ih =>
    refine .bind (both_link h hlast hcopy.1 fun _ _ hlink => ?_)
    refine .bind ((both_copySegment hlink htemplate).mono ?_)
    rintro next mid next' mid' ⟨hmid, hnext⟩
    exact ih hmid hnext hcopy.2

theorem both_appendOptional (h : Alike base base' net net')
    (htemplate : TwinSegments base base' template template')
    (hcopy : TwinSegments base base' copy copy') (hfinish : Twins base base' finish finish')
    (hlast : Twins base base' last last') :
    Both (appendOptional template finish times last copy)
      (appendOptional template' finish' times last' copy') net net'
      fun out mid out' mid' => Alike base base' mid mid' ∧ Twins base base' out out' := by
  induction times generalizing net net' copy copy' last last' with
  | zero => exact both_pure ⟨h, hlast⟩
  | succ times ih =>
    refine .bind (both_link h hlast hfinish fun _ _ hleave => ?_)
    refine .bind (both_link hleave hlast hcopy.1 fun _ _ hlink => ?_)
    refine .bind ((both_copySegment hlink htemplate).mono ?_)
    rintro next mid next' mid' ⟨hmid, hnext⟩
    exact ih hmid hnext hcopy.2

theorem both_appendLoop (h : Alike base base' net net')
    (hcopy : TwinSegments base base' copy copy') (hfinish : Twins base base' finish finish')
    (hlast : Twins base base' last last') :
    Both (appendLoop finish last copy) (appendLoop finish' last' copy') net net'
      fun out mid out' mid' => Alike base base' mid mid' ∧ Twins base base' out out' := by
  refine .bind (both_link h hlast hfinish fun _ _ hleave => ?_)
  refine .bind (both_link hleave hlast hcopy.1 fun _ _ hlink => ?_)
  exact .bind (both_link hlink hcopy.2 hcopy.1 fun _ _ hloop => both_pure ⟨hloop, hcopy.2⟩)

theorem both_lowerRepetition {start start' : Nat} {bounds : Bounds}
    (h : Alike base base' net net') (hstart : Twins base base' start start')
    (hfinish : Twins base base' finish finish')
    (htemplate : TwinSegments base base' template template') :
    Both (lowerRepetition start finish template bounds)
      (lowerRepetition start' finish' template' bounds) net net'
      fun out mid out' mid' => Alike base base' mid mid' ∧ TwinSegments base base' out out' := by
  have hend : ∀ {net net' last last'}, Alike base base' net net' → Twins base base' last last' →
      Both (do link last finish; pure (⟨start, finish⟩ : Segment))
        (do link last' finish'; pure ⟨start', finish'⟩) net net'
        fun out mid out' mid' => Alike base base' mid mid' ∧ TwinSegments base base' out out' :=
    fun h hlast => .bind (both_link h hlast hfinish fun _ _ hlink =>
      both_pure ⟨hlink, hstart, hfinish⟩)
  refine .bind ((both_copySegment h htemplate).mono ?_)
  rintro copy mid copy' mid' ⟨hmid, hcopy⟩
  refine .bind ((both_appendCopies hmid htemplate hcopy hstart).mono ?_)
  rintro ⟨last, next⟩ mid ⟨last', next'⟩ mid' ⟨hmid, hlast, hnext⟩
  cases bounds.high with
  | none =>
    refine .bind ((both_appendLoop hmid hnext hfinish hlast).mono ?_)
    rintro last mid last' mid' ⟨hmid, hlast⟩
    exact hend hmid hlast
  | some high =>
    refine .bind ((both_appendOptional hmid htemplate hnext hfinish hlast).mono ?_)
    rintro last mid last' mid' ⟨hmid, hlast⟩
    exact hend hmid hlast

/-! ## Trees -/

/-- Whether two trees, seen at certain depths, have the same pattern. -/
def TwinTrees (base base' : Network) (depth depth' id id' : Nat) : Prop :=
  ∃ p, base.unfold depth id = some p ∧ base'.unfold depth' id' = some p

variable {depth depth' : Nat} {ids ids' : List Nat}

theorem twinTrees_of_mapM {ps : List Pattern} (hps : ids.mapM (base.unfold depth) = some ps)
    (hps' : ids'.mapM (base'.unfold depth') = some ps) :
    List.Forall₂ (TwinTrees base base' depth depth') ids ids' := by
  induction ids generalizing ids' ps with
  | nil =>
    cases hps
    cases ids' with
    | nil => exact .nil
    | cons id' ids' =>
      obtain ⟨_, _, hcons, -⟩ := unfold_cons hps'
      cases hcons
  | cons id ids ih =>
    obtain ⟨p, qs, rfl, hp, hqs⟩ := unfold_cons hps
    cases ids' with
    | nil => cases hps'
    | cons id' ids' =>
      obtain ⟨_, _, hcons, hp', hqs'⟩ := unfold_cons hps'
      cases hcons
      exact .cons ⟨p, hp, hp'⟩ (ih hqs hqs')

/-- Whether trees of one pattern, seen at these depths, are lowered to twin segments. -/
def LowersTwins (base base' : Network) (depth depth' : Nat) : Prop :=
  ∀ net net' id id', Alike base base' net net' → TwinTrees base base' depth depth' id id' →
    Both (lowerNode depth id) (lowerNode depth' id') net net'
      fun out mid out' mid' => Alike base base' mid mid' ∧ TwinSegments base base' out out'

theorem both_lowerSequence (hlower : LowersTwins base base' depth depth')
    (htrees : List.Forall₂ (TwinTrees base base' depth depth') ids ids')
    (h : Alike base base' net net') (hlast : Twins base base' last last') :
    Both (lowerSequence (lowerNode depth) ids last) (lowerSequence (lowerNode depth') ids' last')
      net net' fun out mid out' mid' => Alike base base' mid mid' ∧ Twins base base' out out' := by
  induction htrees generalizing net net' last last' with
  | nil => exact both_pure ⟨h, hlast⟩
  | cons htree _ ih =>
    refine .bind ((hlower _ _ _ _ h htree).mono ?_)
    rintro segment mid segment' mid' ⟨hmid, hsegment⟩
    exact .bind (both_link hmid hlast hsegment.1 fun _ _ hlink => ih hlink hsegment.2)

theorem both_lowerAlternatives {start start' : Nat} (hlower : LowersTwins base base' depth depth')
    (htrees : List.Forall₂ (TwinTrees base base' depth depth') ids ids')
    (h : Alike base base' net net') (hstart : Twins base base' start start')
    (hfinish : Twins base base' finish finish') :
    Both (lowerAlternatives (lowerNode depth) ids start finish)
      (lowerAlternatives (lowerNode depth') ids' start' finish') net net'
      fun _ mid _ mid' => Alike base base' mid mid' := by
  induction htrees generalizing net net' with
  | nil => exact both_pure h
  | cons htree _ ih =>
    refine .bind ((hlower _ _ _ _ h htree).mono ?_)
    rintro segment mid segment' mid' ⟨hmid, hsegment⟩
    refine .bind (both_link hmid hstart hsegment.1 fun _ _ hopen => ?_)
    exact .bind (both_link hopen hsegment.2 hfinish fun _ _ hclose => ih hclose)

theorem both_single (h : Alike base base' net net') (k : NodeKind) :
    Both (single k) (single k) net net'
      fun out mid out' mid' => Alike base base' mid mid' ∧ TwinSegments base base' out out' :=
  .bind (both_addNode (both_pure ⟨h.push k, h.size, h.size⟩))

/-- What is known of the nodes that two edits look up. -/
theorem both_kind_eq {k k' : NodeKind} {post : NodeKind → Network → NodeKind → Network → Prop}
    (hk : net.kind? i = some k) (hk' : net'.kind? j = some k') (h : post k net k' net') :
    Both (kind i) (kind j) net net' post := by
  refine both_kind fun first second hfirst hsecond => ?_
  rw [hk] at hfirst
  rw [hk'] at hsecond
  cases hfirst
  cases hsecond
  exact h

/-- Trees of one pattern are lowered to twins: they are made of the same layers. -/
theorem both_lowerNode (depth depth' : Nat) : LowersTwins base base' depth depth' := by
  induction depth generalizing depth' with
  | zero => exact fun _ _ _ _ _ _ => both_throw
  | succ depth ih =>
    cases depth' with
    | zero => exact fun _ _ _ _ _ _ => both_throw_right
    | succ depth' =>
      rintro net net' id id' h ⟨p, hp, hp'⟩
      have hjoins := (h.push .join).push .join
      cases layer_of_unfold hp with
      | connector hk hsilent =>
        cases layer_of_unfold hp' with
        | connector hk' hsilent' =>
          refine .bind (both_kind_eq (h.left.kind? hk) (h.right.kind? hk') ?_)
          rcases hsilent with rfl | rfl | rfl <;> rcases hsilent' with rfl | rfl | rfl <;>
            exact both_single h .join
      | @terminal list hk =>
        cases layer_of_unfold hp' with
        | terminal hk' =>
          refine .bind (both_kind_eq (h.left.kind? hk) (h.right.kind? hk') ?_)
          exact both_single h (.terminal list)
      | sequence hk hps =>
        cases layer_of_unfold hp' with
        | sequence hk' hps' =>
          refine .bind (both_kind_eq (h.left.kind? hk) (h.right.kind? hk') ?_)
          refine .bind (both_addNode (.bind (both_addNode ?_)))
          have htrees := twinTrees_of_mapM hps hps'
          refine .bind ((both_lowerSequence (ih depth') htrees hjoins h.size).mono ?_)
          rintro last mid last' mid' ⟨hmid, hlast⟩
          exact .bind (both_link hmid hlast (h.push .join).size fun _ _ hlink =>
            both_pure ⟨hlink, h.size, (h.push .join).size⟩)
      | alternation hk hps =>
        cases layer_of_unfold hp' with
        | alternation hk' hps' =>
          refine .bind (both_kind_eq (h.left.kind? hk) (h.right.kind? hk') ?_)
          refine .bind (both_addNode (.bind (both_addNode ?_)))
          have htrees := twinTrees_of_mapM hps hps'
          refine .bind ((both_lowerAlternatives (ih depth') htrees hjoins h.size
            (h.push .join).size).mono ?_)
          exact fun _ mid _ mid' hmid => both_pure ⟨hmid, h.size, (h.push .join).size⟩
      | repetition hk hq =>
        cases layer_of_unfold hp' with
        | repetition hk' hq' =>
          refine .bind (both_kind_eq (h.left.kind? hk) (h.right.kind? hk') ?_)
          refine .bind (both_addNode (.bind (both_addNode ?_)))
          refine .bind ((ih depth' _ _ _ _ hjoins ⟨_, hq, hq'⟩).mono ?_)
          rintro template mid template' mid' ⟨hmid, htemplate⟩
          exact both_lowerRepetition hmid h.size (h.push .join).size htemplate
      | reference hk =>
        cases layer_of_unfold hp' with
        | reference hk' =>
          refine .bind (both_kind_eq (h.left.kind? hk) (h.right.kind? hk') ?_)
          exact both_throw

end PhraseSearch.Network.Edit
