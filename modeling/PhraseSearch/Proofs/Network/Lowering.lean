import Mathlib.Algebra.BigOperators.Ring.List
import PhraseSearch.Network.Lower
import PhraseSearch.Proofs.Network.Wiring
import PhraseSearch.Proofs.Pattern.Denotation
import PhraseSearch.Proofs.Pattern.Viable

/-!
# What lowered trees read

The segment that `lowerNode` builds for a tree lies in new nodes, and from its entry to its exit
the language of the pattern of the tree is read.  The induction is on the depth; for repetitions it
needs that the template is not touched while its copies are wired, which `Repeating` keeps.  If the
pattern is viable the segment is live.  As not every pattern is, what is live is followed on the
side, under an assumption `P` of the caller's choice.

    the rounds that bounds allow, wired                                (gives_lowerRepetition)
    a tree without references is lowered to its language               (gives_lowerNode)
-/

open scoped Computability

namespace PhraseSearch

open Network

/-! ## Powers -/

/-- The sum of the first `n` powers of a language. -/
def powersBelow (l : Language String) (n : Nat) : Language String :=
  ((List.range n).map (l ^ ·)).sum

theorem mem_powersBelow {l : Language String} {n : Nat} {w : List String} :
    w ∈ powersBelow l n ↔ ∃ k < n, w ∈ l ^ k := by
  simp only [powersBelow, Pattern.mem_sum, List.mem_map, List.mem_range, exists_exists_and_eq_and]

theorem powersBelow_succ (l : Language String) (n : Nat) :
    powersBelow l (n + 1) = 1 + l * powersBelow l n := by
  have hshift : (l ^ ·) ∘ Nat.succ = fun k => l * l ^ k := funext fun k => pow_succ' l k
  rw [powersBelow, List.range_succ_eq_map, List.map_cons, List.sum_cons, pow_zero, List.map_map,
    hshift, List.sum_map_mul_left]
  rfl

theorem powersBelow_add_pow (l : Language String) (n : Nat) :
    powersBelow l n + l ^ n = powersBelow l (n + 1) := by
  rw [powersBelow, powersBelow, List.range_succ, List.map_append, List.sum_append, List.map_cons,
    List.map_nil, List.sum_singleton]

/-- The first rounds have to be run, each of the others may be left out with those after it. -/
theorem Bounds.powers_of_high {b : Bounds} {high : Nat} (h : b.high = some high)
    (l : Language String) :
    b.powers l = l ^ b.low * powersBelow l (high - b.low + 1) := by
  ext w
  rw [mem_powers, Language.mem_mul]
  constructor
  · rintro ⟨n, ⟨hlow, hhigh⟩, hw⟩
    have := hhigh high h
    rw [← Nat.add_sub_cancel' hlow, pow_add, Language.mem_mul] at hw
    obtain ⟨u, hu, v, hv, rfl⟩ := hw
    exact ⟨u, hu, v, mem_powersBelow.2 ⟨n - b.low, by omega, hv⟩, rfl⟩
  · rintro ⟨u, hu, v, hv, rfl⟩
    obtain ⟨k, hk, hv⟩ := mem_powersBelow.1 hv
    refine ⟨b.low + k, ⟨by omega, fun high' hhigh => ?_⟩, ?_⟩
    · obtain rfl : high = high' := by
        rw [h] at hhigh
        exact Option.some.inj hhigh
      omega
    · rw [pow_add]
      exact Language.append_mem_mul hu hv

/-- Without an upper bound any number of rounds may follow the first. -/
theorem Bounds.powers_of_unbounded {b : Bounds} (h : b.high = none) (l : Language String) :
    b.powers l = l ^ b.low * l∗ := by
  ext w
  rw [mem_powers, Language.kstar_eq_iSup_pow, Language.mul_iSup, Language.mem_iSup]
  constructor
  · rintro ⟨n, ⟨hlow, -⟩, hw⟩
    refine ⟨n - b.low, ?_⟩
    rwa [← pow_add, Nat.add_sub_cancel' hlow]
  · rintro ⟨k, hw⟩
    rw [← pow_add] at hw
    refine ⟨b.low + k, ⟨Nat.le_add_right _ _, fun high hhigh => ?_⟩, hw⟩
    rw [h] at hhigh
    cases hhigh

/-! ## Repetitions -/

namespace Network.Edit

/-- What holds while copies of a template are wired: the next copy is ready in new nodes, and the
template is as it was. -/
structure Repeating (base net : Network) (t : Set Nat) (template copy ends : Segment)
    (kinds : NodeKind × NodeKind) (hi last : Nat) (l a f : Language String) : Prop where
  wiring : Wiring base net ends kinds hi last a f
  copy : copy.Within net (Set.Ico hi net.size) l
  template : template.Within net t l
  below : ∀ id ∈ t, id < hi
  last_notMem : last ∉ t

/-- What holds besides if the template is live: so are its next copy, and what has been wired. -/
structure Thriving (net : Network) (template copy ends : Segment) (last : Nat) : Prop where
  ends : ends.Live net last
  copy : copy.Live net copy.exit
  template : template.Live net template.exit

variable {base net : Network} {t : Set Nat} {template copy ends : Segment}
  {kinds : NodeKind × NodeKind} {hi last : Nat} {l a f : Language String} {P : Prop}

theorem Repeating.last_lt (h : Repeating base net t template copy ends kinds hi last l a f) :
    last < net.size :=
  Nat.lt_of_lt_of_le h.wiring.last_mem.2 h.wiring.hi_le

/-- The copy is appended, and the next one is made. -/
theorem gives_append {α : Type} {x : Segment → Edit α} {post : α → Network → Prop}
    (h : Repeating base net t template copy ends kinds hi last l a f)
    (hlive : P → Thriving net template copy ends last)
    (hx : ∀ next net',
      Repeating base net' t template next ends kinds net.size copy.exit l (a * l) f →
      (P → Thriving net' template next ends copy.exit) → Gives (x next) net' post) :
    Gives (do link last copy.entry; x (← copySegment template)) net post := by
  refine .bind (gives_link h.last_lt ?_)
  have hwiring := h.wiring.append h.copy
  have hsize : net.size ≤ (net.update last (·.link copy.entry)).size := by rw [size_update]
  have hsame : ∀ id ∈ t, (net.update last (·.link copy.entry)).node? id = net.node? id := by
    intro id hid
    have hne : id ≠ last := by
      rintro rfl
      exact h.last_notMem hid
    rw [node?_update, if_neg hne]
  have htemplate := h.template.congr hsize hsame
  refine .bind ((gives_copySegment htemplate).mono ?_)
  rintro next net' ⟨hext, hnext, hcopy⟩
  rw [size_update] at hnext
  have hsame' : ∀ id ∈ t, net'.node? id = (net.update last (·.link copy.entry)).node? id :=
    fun id hid => hext.same id (htemplate.region.lt_size id hid)
  refine hx next net' ⟨hwiring.congr hext, hnext, ?_, ?_, ?_⟩ fun hP => ?_
  · exact htemplate.congr hext.size_le hsame'
  · intro id hid
    exact h.template.region.lt_size id hid
  · intro hmem
    have := h.below _ hmem
    have := h.copy.exit.1
    omega
  · obtain ⟨hends, hcopied, hlive⟩ := hlive hP
    have hlive' := hlive.congr h.template.region h.template.entry hsize hsame
    refine ⟨?_, hcopy hlive', hlive'.congr htemplate.region htemplate.entry hext.size_le hsame'⟩
    exact (hends.append h.last_lt hcopied).congr hwiring.region hwiring.entry_mem hext.size_le
      fun id hid => hext.same id (hwiring.region.lt_size id hid)

/-- The segment may be left before the copy is appended. -/
theorem Repeating.leave (h : Repeating base net t template copy ends kinds hi last l a f) :
    Repeating base (net.update last (·.link ends.exit)) t template copy ends kinds hi last l a
      (f + a) := by
  have hsame : ∀ id, id ≠ last →
      (net.update last (·.link ends.exit)).node? id = net.node? id := by
    intro id hne
    rw [node?_update, if_neg hne]
  have hsize : net.size ≤ (net.update last (·.link ends.exit)).size := by rw [size_update]
  refine ⟨h.wiring.leave, ?_, ?_, h.below, h.last_notMem⟩
  · rw [size_update]
    refine h.copy.congr hsize fun id hid => hsame id ?_
    have := h.wiring.last_mem.2
    have := hid.1
    omega
  · refine h.template.congr hsize fun id hid => hsame id ?_
    rintro rfl
    exact h.last_notMem hid

theorem Thriving.leave (hlive : Thriving net template copy ends last)
    (h : Repeating base net t template copy ends kinds hi last l a f) :
    Thriving (net.update last (·.link ends.exit)) template copy ends last := by
  have hsame : ∀ id, id ≠ last →
      (net.update last (·.link ends.exit)).node? id = net.node? id := by
    intro id hne
    rw [node?_update, if_neg hne]
  have hsize : net.size ≤ (net.update last (·.link ends.exit)).size := by rw [size_update]
  refine ⟨(hlive.ends.leave h.last_lt h.wiring.sink).of_exit last, ?_, ?_⟩
  · refine hlive.copy.congr h.copy.region h.copy.entry hsize fun id hid => hsame id ?_
    have := h.wiring.last_mem.2
    have := hid.1
    omega
  · refine hlive.template.congr h.template.region h.template.entry hsize fun id hid => hsame id ?_
    rintro rfl
    exact h.last_notMem hid

theorem gives_appendCopies {times : Nat}
    (h : Repeating base net t template copy ends kinds hi last l a f)
    (hlive : P → Thriving net template copy ends last) :
    Gives (appendCopies template times last copy) net fun out net' => ∃ hi',
      Repeating base net' t template out.2 ends kinds hi' out.1 l (a * l ^ times) f ∧
      (P → Thriving net' template out.2 ends out.1) := by
  induction times generalizing net copy hi last a with
  | zero =>
    refine gives_pure ⟨hi, ?_, hlive⟩
    rw [pow_zero, mul_one]
    exact h
  | succ times ih =>
    refine gives_append h hlive fun next net' hnext hlive => (ih hnext hlive).mono ?_
    rintro out net' ⟨hi', hout, hlive⟩
    rw [mul_assoc, ← pow_succ'] at hout
    exact ⟨hi', hout, hlive⟩

theorem gives_appendOptional {times : Nat}
    (h : Repeating base net t template copy ends kinds hi last l a f)
    (hlive : P → Thriving net template copy ends last) :
    Gives (appendOptional template ends.exit times last copy) net fun out net' => ∃ hi' next,
      Repeating base net' t template next ends kinds hi' out l (a * l ^ times)
        (f + a * powersBelow l times) ∧ (P → ends.Live net' out) := by
  induction times generalizing net copy hi last a f with
  | zero =>
    refine gives_pure ⟨hi, copy, ?_, fun hP => (hlive hP).ends⟩
    have hnone : powersBelow l 0 = 0 := rfl
    rw [hnone, pow_zero, mul_one, mul_zero, add_zero]
    exact h
  | succ times ih =>
    refine .bind (gives_link h.last_lt ?_)
    refine gives_append h.leave (fun hP => (hlive hP).leave h) fun next net' hnext hlive =>
      (ih hnext hlive).mono ?_
    rintro out net' ⟨hi', next, hout, hlive⟩
    have hsum : f + a + a * l * powersBelow l times = f + a * powersBelow l (times + 1) := by
      rw [powersBelow_succ, mul_add, mul_one, mul_assoc, add_assoc]
    rw [mul_assoc, ← pow_succ', hsum] at hout
    exact ⟨hi', next, hout, hlive⟩

/-- When all copies are wired, the one that is left over is counted in. -/
theorem Repeating.absorb (h : Repeating base net t template copy ends kinds hi last l a f) :
    Wiring base net ends kinds net.size last a f :=
  h.wiring.absorb h.copy.region h.copy.simple

theorem gives_appendLoop (h : Repeating base net t template copy ends kinds hi last l a f)
    (hlive : P → Thriving net template copy ends last) :
    Gives (appendLoop ends.exit last copy) net fun out net' =>
      Wiring base net' ends kinds net'.size out (a * (l * l∗)) (f + a) ∧
      (P → ends.Live net' out) := by
  have hleave := h.leave
  have hloop := hleave.wiring.appendLoop hleave.copy
  have hexit : copy.exit < net.size := h.copy.region.lt_size _ h.copy.exit
  have hsize : ∀ x : Network, ∀ id y, (x.update id y).size = x.size := size_update
  refine .bind (gives_link h.last_lt (.bind (gives_link ?_
    (.bind (gives_link ?_ (gives_pure ⟨?_, fun hP => ?_⟩))))))
  · rw [hsize]
    exact h.last_lt
  · rw [hsize, hsize]
    exact hexit
  · rw [hsize, hsize]
    exact hloop
  · have hlive := (hlive hP).leave h
    refine (hlive.ends.append hleave.last_lt hlive.copy).loop (by rwa [hsize, hsize]) ?_
    have hle := Nat.le_of_eq (hsize (net.update last (·.link ends.exit)) last
      (·.link copy.entry)).symm
    refine hlive.copy.congr hleave.copy.region hleave.copy.entry hle fun id hid => ?_
    have hne : id ≠ last := by
      have := h.wiring.last_mem.2
      have := hid.1
      omega
    rw [node?_update, if_neg hne]

/-- Between two connectors a template is repeated as often as the bounds allow. -/
theorem gives_lowerRepetition {bounds : Bounds}
    (hwiring : Wiring base net ends (.join, .join) hi ends.entry 1 0)
    (htemplate : template.Within net (Set.Ico hi net.size) l)
    (hlive : P → ends.Live net ends.entry ∧ template.Live net template.exit) :
    Gives (lowerRepetition ends.entry ends.exit template bounds) net fun out net' =>
      Extends base net' ∧ out.Within net' (Set.Ico base.size net'.size) (bounds.powers l) ∧
      (P → out.Live net' out.exit) := by
  refine .bind ((gives_copySegment htemplate).mono ?_)
  rintro copy net₁ ⟨hext, hcopy, hcopied⟩
  have hsame : ∀ id ∈ Set.Ico hi net.size, net₁.node? id = net.node? id := fun id hid =>
    hext.same id hid.2
  have hstart : Repeating base net₁ (Set.Ico hi net.size) template copy ends (.join, .join) net.size
      ends.entry l 1 0 := by
    refine ⟨(hwiring.absorb htemplate.region htemplate.simple).congr hext, hcopy, ?_, ?_, ?_⟩
    · exact htemplate.congr hext.size_le hsame
    · exact fun id hid => hid.2
    · intro hmem
      have := hwiring.entry_mem.2
      have := hmem.1
      omega
  have hthriving : P → Thriving net₁ template copy ends ends.entry := by
    intro hP
    obtain ⟨hends, hlive⟩ := hlive hP
    refine ⟨?_, hcopied hlive, ?_⟩
    · exact hends.congr hwiring.region hwiring.entry_mem hext.size_le fun id hid =>
        hext.same id (hwiring.region.lt_size id hid)
    · exact hlive.congr htemplate.region htemplate.entry hext.size_le hsame
  refine .bind ((gives_appendCopies hstart hthriving).mono ?_)
  rintro ⟨last, next⟩ net₂ ⟨hi₂, hcopies, hthriving⟩
  rw [one_mul] at hcopies
  have hfinish : ∀ {last : Nat} {net₃ : Network} {a f : Language String},
      Wiring base net₃ ends (.join, .join) net₃.size last a f → f + a = bounds.powers l →
      (P → ends.Live net₃ last) →
      Gives (do link last ends.exit; pure (⟨ends.entry, ends.exit⟩ : Segment)) net₃
        fun out net' => Extends base net' ∧
          out.Within net' (Set.Ico base.size net'.size) (bounds.powers l) ∧
          (P → out.Live net' out.exit) := by
    intro last net₃ a f h hpowers hlive
    have hlast : last < net₃.size := h.last_mem.2
    refine .bind (gives_link hlast (gives_pure ?_))
    have hleave := h.leave
    have hsize : (net₃.update last (·.link ends.exit)).size = net₃.size := size_update _ _ _
    rw [hpowers, ← hsize] at hleave
    exact ⟨hleave.extends_, hleave.within, fun hP => (hlive hP).leave hlast h.sink⟩
  cases hhigh : bounds.high with
  | none =>
    refine .bind ((gives_appendLoop hcopies hthriving).mono ?_)
    rintro last' net₃ ⟨hloop, hlive⟩
    refine hfinish hloop ?_ hlive
    rw [Bounds.powers_of_unbounded hhigh, zero_add]
    calc l ^ bounds.low + l ^ bounds.low * (l * l∗) = l ^ bounds.low * (1 + l * l∗) := by
          rw [mul_add, mul_one]
      _ = l ^ bounds.low * l∗ := by rw [Language.one_add_self_mul_kstar_eq_kstar]
  | some high =>
    refine .bind ((gives_appendOptional hcopies hthriving).mono ?_)
    rintro last' net₃ ⟨hi₃, next₃, hoptional, hlive⟩
    refine hfinish hoptional.absorb ?_ hlive
    rw [Bounds.powers_of_high hhigh, zero_add, ← mul_add, powersBelow_add_pow]

/-! ## Trees -/

/-- Whether trees of some depth are lowered to segments that read their languages, and are live if
the patterns are viable. -/
def Lowers (depth : Nat) : Prop :=
  ∀ net id p, net.unfold depth id = some p → p.references = [] →
    Gives (lowerNode depth id) net fun segment net' =>
      Extends net net' ∧ segment.Within net' (Set.Ico net.size net'.size) p.language ∧
      (p.Viable → segment.Live net' segment.exit)

theorem gives_lowerSequence {depth : Nat} {items : List Nat} {ps : List Pattern}
    (hlower : Lowers depth) (hps : items.mapM (base.unfold depth) = some ps)
    (hclosed : Pattern.allReferences ps = []) (h : Wiring base net ends kinds net.size last a f)
    (hviable : P → Pattern.AllViable ps) (hlive : P → ends.Live net last) :
    Gives (lowerSequence (lowerNode depth) items last) net fun out net' =>
      Wiring base net' ends kinds net'.size out (a * Pattern.productIn (fun _ => 0) ps) f ∧
      (P → ends.Live net' out) := by
  induction items generalizing net last a ps with
  | nil =>
    obtain rfl : ps = [] := by simpa using hps.symm
    refine gives_pure ⟨?_, hlive⟩
    rw [Pattern.productIn, mul_one]
    exact h
  | cons item items ih =>
    obtain ⟨p, qs, rfl, hp, hqs⟩ := unfold_cons hps
    obtain ⟨hpclosed, hqclosed⟩ := List.append_eq_nil_iff.1 hclosed
    refine .bind ((hlower net item p (unfold_of_extends h.extends_ hp) hpclosed).mono ?_)
    rintro segment mid ⟨hext, hsegment, hsegmentLive⟩
    have hlast : last < mid.size := Nat.lt_of_lt_of_le h.last_mem.2 hext.size_le
    refine .bind (gives_link hlast ?_)
    have happend := (h.congr hext).append hsegment
    have happendLive : P → ends.Live (mid.update last (·.link segment.entry)) segment.exit := by
      intro hP
      refine Segment.Live.append ?_ hlast (hsegmentLive (hviable hP).1)
      exact (hlive hP).congr h.region h.entry_mem hext.size_le fun id hid => hext.same id hid.2
    have hsize : (mid.update last (·.link segment.entry)).size = mid.size := size_update _ _ _
    rw [← hsize] at happend
    refine (ih hqs hqclosed happend (fun hP => (hviable hP).2) happendLive).mono ?_
    rintro out net' ⟨hout, houtLive⟩
    rw [Pattern.productIn, ← mul_assoc]
    exact ⟨hout, houtLive⟩

/-- As soon as there is an alternative, everything that is between the ends leads to the last. -/
theorem gives_lowerAlternatives {depth : Nat} {alternatives : List Nat} {ps : List Pattern}
    (hlower : Lowers depth) (hps : alternatives.mapM (base.unfold depth) = some ps)
    (hclosed : Pattern.allReferences ps = [])
    (h : Wiring base net ends kinds net.size ends.entry 1 f)
    (hviable : P → Pattern.AllViable ps) (hlive : P → ends.Live net ends.entry) :
    Gives (lowerAlternatives (lowerNode depth) alternatives ends.entry ends.exit) net fun _ net' =>
      Wiring base net' ends kinds net'.size ends.entry 1 (f + Pattern.sumIn (fun _ => 0) ps) ∧
      (P → ps ≠ [] ∨ ends.Live net ends.exit → ends.Live net' ends.exit) := by
  induction alternatives generalizing net f ps with
  | nil =>
    obtain rfl : ps = [] := by simpa using hps.symm
    refine gives_pure ⟨?_, fun _ => Or.rec (absurd rfl) id⟩
    rw [Pattern.sumIn, add_zero]
    exact h
  | cons alternative alternatives ih =>
    obtain ⟨p, qs, rfl, hp, hqs⟩ := unfold_cons hps
    obtain ⟨hpclosed, hqclosed⟩ := List.append_eq_nil_iff.1 hclosed
    refine .bind ((hlower net alternative p (unfold_of_extends h.extends_ hp) hpclosed).mono ?_)
    rintro segment mid ⟨hext, hsegment, hsegmentLive⟩
    have hentry : ends.entry < mid.size := Nat.lt_of_lt_of_le h.entry_mem.2 hext.size_le
    refine .bind (gives_link hentry ?_)
    have happend := (h.congr hext).append hsegment
    rw [one_mul] at happend
    have hsize : ∀ x : Network, ∀ id y, (x.update id y).size = x.size := size_update
    have hexit : segment.exit < (mid.update ends.entry (·.link segment.entry)).size := by
      rw [hsize]
      exact happend.last_mem.2
    refine .bind (gives_link hexit ?_)
    have hleave := happend.leave.restart
    rw [← hsize mid ends.entry (·.link segment.entry),
      ← hsize (mid.update ends.entry _) segment.exit (·.link ends.exit)] at hleave
    have hleaveLive : P → ends.Live ((mid.update ends.entry (·.link segment.entry)).update
        segment.exit (·.link ends.exit)) ends.exit := by
      intro hP
      refine Segment.Live.leave (.append ?_ hentry (hsegmentLive (hviable hP).1)) hexit happend.sink
      exact (hlive hP).congr h.region h.entry_mem hext.size_le fun id hid => hext.same id hid.2
    refine (ih hqs hqclosed hleave (fun hP => (hviable hP).2) fun hP =>
      (hleaveLive hP).of_exit _).mono ?_
    rintro _ net' ⟨hout, houtLive⟩
    rw [Pattern.sumIn, ← add_assoc]
    exact ⟨hout, fun hP _ => houtLive hP (.inr (hleaveLive hP))⟩

theorem gives_single {k : NodeKind}
    (hk : k = .join ∧ l = 1 ∨ ∃ list, k = .terminal list ∧ l = {[list]}) :
    Gives (single k) net fun segment net' =>
      Extends net net' ∧ segment.Within net' (Set.Ico net.size net'.size) l ∧
      (P → segment.Live net' segment.exit) := by
  refine .bind (gives_addNode (gives_pure ⟨extends_push net k, ?_⟩))
  have hkind : (net.push k).kind? net.size = some k := by
    rw [kind?, node?_push_size]
    rfl
  have htargets : (net.push k).targets net.size = [] := by rw [targets_push, if_pos rfl]
  have hmem : net.size ∈ Set.Ico net.size (net.push k).size := by
    rw [size_push]
    exact ⟨Nat.le_refl _, Nat.lt_succ_self _⟩
  have honly : ∀ id ∈ Set.Ico net.size (net.push k).size, id = net.size := by
    intro id hid
    have := hid.1
    have := hid.2
    rw [size_push] at this
    omega
  have hedge : ∀ i j, i ∈ Set.Ico net.size (net.push k).size → ¬ (net.push k).Edge i j := by
    intro i j hi hedge
    rw [honly i hi, ← mem_targets, htargets] at hedge
    cases hedge
  refine ⟨⟨⟨fun id hid => hid.2, fun i j hi h => absurd h (hedge i j hi), fun id hid => ?_⟩, hmem,
    hmem, htargets, fun id hid => hedge id _ hid, fun id hid => ?_, ?_⟩, fun _ => .of_sink htargets⟩
  · rw [honly id hid, htargets]
    exact List.nodup_nil
  · rw [honly id hid, Simple, hkind]
    rcases hk with ⟨rfl, -⟩ | ⟨list, rfl, -⟩
    · exact .inl rfl
    · exact .inr ⟨list, rfl⟩
  · show (net.push k).reads net.size net.size = l
    rw [reads_self_of_sink htargets, label, hkind]
    rcases hk with ⟨rfl, rfl⟩ | ⟨list, rfl, rfl⟩
    · rfl
    · rfl

/-- A tree without references is lowered to a segment that reads its language, and is live if its
pattern is viable. -/
theorem gives_lowerNode (depth : Nat) : Lowers depth := by
  induction depth with
  | zero =>
    intro net id p hp
    cases hp
  | succ depth ih =>
    intro net id p hp hclosed
    have hends : Wiring net ((net.push .join).push .join) ⟨net.size, net.size + 1⟩
        (.join, .join) (net.size + 2) net.size 1 0 := .start net (by simp) (by simp)
    have hlive : ∀ P : Prop, P → Segment.Live ((net.push .join).push .join)
        ⟨net.size, net.size + 1⟩ net.size := fun _ _ => Wiring.live_start net _ _
    have hsize : ((net.push .join).push .join).size = net.size + 2 := by
      rw [size_push, size_push]
    cases layer_of_unfold hp with
    | connector hkind hsilent =>
      refine .bind (gives_kind hkind ?_)
      rcases hsilent with rfl | rfl | rfl <;> exact gives_single (.inl ⟨rfl, rfl⟩)
    | terminal hkind =>
      refine .bind (gives_kind hkind ?_)
      exact gives_single (.inr ⟨_, rfl, rfl⟩)
    | sequence hkind hps =>
      refine .bind (gives_kind hkind (.bind (gives_addNode (.bind (gives_addNode ?_)))))
      rw [size_push]
      rw [← hsize] at hends
      refine .bind ((gives_lowerSequence ih hps hclosed hends (fun hP => hP) (hlive _)).mono ?_)
      rintro last net' ⟨h, hlast⟩
      refine .bind (gives_link h.last_mem.2 (gives_pure ?_))
      have hleave := h.leave
      have hsame : (net'.update last (·.link (net.size + 1))).size = net'.size :=
        size_update _ _ _
      rw [← hsame, one_mul, zero_add] at hleave
      exact ⟨hleave.extends_, hleave.within, fun hP => (hlast hP).leave h.last_mem.2 h.sink⟩
    | alternation hkind hps =>
      refine .bind (gives_kind hkind (.bind (gives_addNode (.bind (gives_addNode ?_)))))
      rw [size_push]
      rw [← hsize] at hends
      refine .bind ((gives_lowerAlternatives ih hps hclosed hends
        (fun hP : (Pattern.alternation _).Viable => hP.2) (hlive _)).mono ?_)
      rintro _ net' ⟨h, hout⟩
      rw [zero_add] at h
      exact gives_pure ⟨h.extends_, h.within, fun hP => hout hP (.inl hP.1)⟩
    | @repetition inner q bounds hkind hq =>
      refine .bind (gives_kind hkind (.bind (gives_addNode (.bind (gives_addNode ?_)))))
      rw [size_push]
      have hq' := unfold_of_extends hends.extends_ hq
      refine .bind ((ih _ inner q hq' hclosed).mono ?_)
      rintro template mid ⟨hext, htemplate, htemplateLive⟩
      rw [hsize] at htemplate
      refine gives_lowerRepetition (hends.congr hext) htemplate fun hP => ⟨?_, htemplateLive hP⟩
      exact (hlive _ hP).congr hends.region hends.entry_mem hext.size_le fun id hid =>
        hext.same id (hends.region.lt_size id hid)
    | reference => cases hclosed

end Network.Edit

end PhraseSearch
