import PhraseSearch.Network.Segment
import PhraseSearch.Proofs.Network.Reading

/-!
# Live segments

One node leads to another if something can be read between them.  A segment is *live* if every node
that its entry leads to leads on to its exit.  While a segment is being built, what has been built
so far may also end at the node that has been appended last.

    a new edge leads from what led to its source to what its target leads to
                                                                       (leads_link)
    appending a live segment keeps what has been built live            (Segment.Live.append)
    leaving at the last node makes everything lead to the exit         (Segment.Live.leave)
-/

namespace PhraseSearch

namespace Network

variable {net net' : Network} {u v x y : Nat}

/-- Whether a walk along edges leads from one node to another; every node leads to itself. -/
def Leads (net : Network) (source target : Nat) : Prop :=
  ∃ w, net.Reads source w target

theorem Leads.refl (net : Network) (id : Nat) : net.Leads id id := ⟨_, .here id⟩

theorem Leads.eq_of_sink (h : net.Leads u v) (hu : net.targets u = []) : v = u := by
  obtain ⟨w, hw⟩ := h
  apply Classical.byContradiction
  intro hne
  have hnone : w ∈ net.reads u v := hw
  rw [reads_eq_zero_of_sink hu hne] at hnone
  exact Language.notMem_zero w hnone

theorem leads_link (hx : x < net.size) :
    (net.update x (·.link y)).Leads u v ↔ net.Leads u v ∨ net.Leads u x ∧ net.Leads y v := by
  simp only [Leads, ← mem_reads, reads_link hx, Language.mem_add]
  constructor
  · rintro ⟨w, hw | ⟨_, ⟨p, hp, m, -, rfl⟩, q, hq, rfl⟩⟩
    · exact .inl ⟨w, hw⟩
    · exact .inr ⟨⟨p, hp⟩, q, hq⟩
  · rintro (⟨w, hw⟩ | ⟨⟨p, hp⟩, q, hq⟩)
    · exact ⟨w, .inl hw⟩
    · exact ⟨_, .inr ⟨_, ⟨p, hp, [], Language.nil_mem_kstar _, rfl⟩, q, hq, rfl⟩⟩

theorem Region.leads_iff {s : Set Nat} (h : Region net s) (hsize : net.size ≤ net'.size)
    (hsame : ∀ id ∈ s, net'.node? id = net.node? id) (hu : u ∈ s) :
    net'.Leads u v ↔ net.Leads u v := by
  simp only [Leads, ← mem_reads, h.reads_eq hsize hsame hu]

end Network

open Network

/-! ## Segments -/

/-- Whether every node that the entry of a segment leads to leads on, to a certain node or to the
exit. -/
def Segment.Live (net : Network) (segment : Segment) (last : Nat) : Prop :=
  ∀ v, net.Leads segment.entry v → net.Leads v last ∨ net.Leads v segment.exit

namespace Segment.Live

variable {net net' : Network} {ends segment : Segment} {last : Nat}

theorem leads_exit (h : ends.Live net ends.exit) {v : Nat} (hv : net.Leads ends.entry v) :
    net.Leads v ends.exit :=
  (h v hv).elim id id

theorem of_exit (h : ends.Live net ends.exit) (last : Nat) : ends.Live net last :=
  fun _ hv => .inr (h.leads_exit hv)

/-- Where no edge leaves the entry, nothing else can be reached. -/
theorem of_sink (h : net.targets ends.entry = []) : ends.Live net ends.entry := by
  intro v hv
  obtain rfl := hv.eq_of_sink h
  exact .inl (.refl net _)

/-- Nothing that changes elsewhere matters. -/
theorem congr (h : ends.Live net last) {s : Set Nat} (hs : Region net s)
    (hentry : ends.entry ∈ s) (hsize : net.size ≤ net'.size)
    (hsame : ∀ id ∈ s, net'.node? id = net.node? id) : ends.Live net' last := by
  intro v hv
  have hv := (hs.leads_iff hsize hsame hentry).1 hv
  obtain ⟨w, hw⟩ := id hv
  have hmem := hw.mem_of_closed hs.closed hentry
  exact (h v hv).imp (hs.leads_iff hsize hsame hmem).2 (hs.leads_iff hsize hsame hmem).2

theorem append (h : ends.Live net last) (hlast : last < net.size)
    (hsegment : segment.Live net segment.exit) :
    ends.Live (net.update last (·.link segment.entry)) segment.exit := by
  intro v hv
  rcases (leads_link hlast).1 hv with hold | ⟨-, hnew⟩
  · rcases h v hold with hv | hv
    · exact .inl ((leads_link hlast).2 (.inr ⟨hv, hsegment.leads_exit (.refl net _)⟩))
    · exact .inr ((leads_link hlast).2 (.inl hv))
  · exact .inl ((leads_link hlast).2 (.inl (hsegment.leads_exit hnew)))

/-- The last node may lead back, to where a live segment begins. -/
theorem loop (h : ends.Live net segment.exit) (hexit : segment.exit < net.size)
    (hsegment : segment.Live net segment.exit) :
    ends.Live (net.update segment.exit (·.link segment.entry)) segment.exit := by
  intro v hv
  rcases (leads_link hexit).1 hv with hold | ⟨-, hnew⟩
  · exact (h v hold).imp (fun hv => (leads_link hexit).2 (.inl hv)) fun hv =>
      (leads_link hexit).2 (.inl hv)
  · exact .inl ((leads_link hexit).2 (.inl (hsegment.leads_exit hnew)))

theorem leave (h : ends.Live net last) (hlast : last < net.size)
    (hsink : net.targets ends.exit = []) :
    ends.Live (net.update last (·.link ends.exit)) ends.exit := by
  intro v hv
  refine .inr ((leads_link hlast).2 ?_)
  rcases (leads_link hlast).1 hv with hold | ⟨-, hnew⟩
  · exact (h v hold).symm.imp id fun hv => ⟨hv, .refl net _⟩
  · obtain rfl := hnew.eq_of_sink hsink
    exact .inl (.refl net _)

end Segment.Live

end PhraseSearch
