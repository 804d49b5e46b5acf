import PhraseSearch.Automaton.Attach
import PhraseSearch.Automaton.Drawing
import PhraseSearch.Proofs.Automaton.Binding
import PhraseSearch.Proofs.Text.Pieces

/-!
# Reading drawings

A drawing shows everything but the tries.  Its lines end at line breaks, as there are none in them;
those of states have brackets and those of edges have none; a number ends where no digit stands; and
in a list name a backslash stands for itself, unless a quote follows.

    texts can be told from their escaped forms                         (escapeQuotes_inj)
    labels from their attributes, but for tries                        (attributes_inj)
    edges from their lines                                             (edgeLine_inj)
    the edges of a state are those that are drawn from it              (filter_drawnFrom)
    names and automata from their drawings, but for tries              (drawing_inj)
-/

namespace PhraseSearch.Automaton

open Text

variable {a b : Automaton} {name name' : String}

/-! ## Escaped texts -/

/-- How a character stands in an escaped text. -/
def escaped (c : Char) : List Char := if c = '"' then ['\\', '"'] else [c]

theorem toList_escapeQuotes (text : String) :
    (escapeQuotes text).toList = text.toList.flatMap escaped :=
  String.toList_ofList

theorem escaped_ne_nil (c : Char) : escaped c ≠ [] := by
  rw [escaped]
  split <;> simp

theorem mem_of_mem_escaped {c d : Char} (h : c ∈ escaped d) : c = '\\' ∨ c = d := by
  rw [escaped] at h
  split at h <;> simp_all

/-- No escaped text begins with a quote. -/
theorem head?_flatMap_escaped (cs : List Char) : (cs.flatMap escaped).head? ≠ some '"' := by
  cases cs with
  | nil => simp
  | cons c cs =>
    rw [List.flatMap_cons, escaped]
    split <;> simp_all

/-- A backslash stands for itself unless a quote follows. -/
theorem escaped_append_inj {c d : Char} {rest rest' : List Char} (hrest : rest.head? ≠ some '"')
    (hrest' : rest'.head? ≠ some '"') (h : escaped c ++ rest = escaped d ++ rest') :
    c = d ∧ rest = rest' := by
  rw [escaped, escaped] at h
  split at h
  · next hc =>
    split at h
    · next hd => exact ⟨hc.trans hd.symm, by simpa using h⟩
    · obtain ⟨-, rfl⟩ : '\\' = d ∧ '"' :: rest = rest' := by simpa using h
      exact absurd rfl hrest'
  · split at h
    · obtain ⟨-, rfl⟩ : c = '\\' ∧ rest = '"' :: rest' := by simpa using h
      exact absurd rfl hrest
    · simpa using h

theorem flatMap_escaped_inj {cs ds : List Char} (h : cs.flatMap escaped = ds.flatMap escaped) :
    cs = ds := by
  induction cs generalizing ds with
  | nil =>
    cases ds with
    | nil => rfl
    | cons d ds => exact absurd (List.append_eq_nil_iff.1 h.symm).1 (escaped_ne_nil d)
  | cons c cs ih =>
    cases ds with
    | nil => exact absurd (List.append_eq_nil_iff.1 h).1 (escaped_ne_nil c)
    | cons d ds =>
      obtain ⟨rfl, hrest⟩ :=
        escaped_append_inj (head?_flatMap_escaped cs) (head?_flatMap_escaped ds) h
      rw [ih hrest]

theorem escapeQuotes_inj {text text' : String} (h : escapeQuotes text = escapeQuotes text') :
    text = text' := by
  have hchars := congrArg String.toList h
  rw [toList_escapeQuotes, toList_escapeQuotes] at hchars
  exact String.toList_injective (flatMap_escaped_inj hchars)

/-! ## Labels -/

/-- The ends are drawn in a shape of their own, whatever lists are called. -/
theorem attributes_ne_word {l : Label} (hl : l.list? = none) (list : String) (trie : Option Trie) :
    l.attributes ≠ (Label.word list trie).attributes := by
  have hword : (Label.word list trie).attributes.toList[1]? = some 'l' := by
    rw [Label.attributes, String.toList_append, String.toList_append, List.append_assoc]
    rfl
  intro h
  rw [← h] at hword
  cases l with
  | start => exact absurd hword (by decide)
  | finish => exact absurd hword (by decide)
  | word => cases hl

/-- Just the tries of words are not drawn. -/
theorem attributes_inj {l l' : Label} (h : l.attributes = l'.attributes) :
    l.unbound = l'.unbound := by
  cases l with
  | start =>
    cases l' with
    | start => rfl
    | finish => exact absurd h (by decide)
    | word => exact absurd h (attributes_ne_word rfl _ _)
  | finish =>
    cases l' with
    | start => exact absurd h (by decide)
    | finish => rfl
    | word => exact absurd h (attributes_ne_word rfl _ _)
  | word list trie =>
    cases l' with
    | start | finish => exact absurd h.symm (attributes_ne_word rfl _ _)
    | word list' trie' =>
      rw [Label.attributes, Label.attributes, String.append_left_inj, String.append_right_inj] at h
      rw [Label.unbound, Label.unbound, escapeQuotes_inj h]

theorem break_notMem_attributes {l : Label} (h : ∀ list ∈ l.list?, '\n' ∉ list.toList) :
    '\n' ∉ l.attributes.toList := by
  cases l with
  | start => decide
  | finish => decide
  | word list trie =>
    have hlist : '\n' ∉ (escapeQuotes list).toList := by
      rw [toList_escapeQuotes, List.mem_flatMap]
      rintro ⟨c, hc, hbreak⟩
      rcases mem_of_mem_escaped hbreak with heq | rfl
      · cases heq
      · exact h list rfl hc
    simp [Label.attributes, hlist]

/-! ## Lines of states and edges -/

theorem stateLine_inj {id : Nat} {state state' : State}
    (h : stateLine id state = stateLine id state') :
    state.label.unbound = state'.label.unbound := by
  rw [stateLine, stateLine, String.append_left_inj, String.append_right_inj] at h
  exact attributes_inj h

/-- The line of an edge. -/
def edgeLine (source target : Nat) : String :=
  "  n" ++ toString source ++ " -> n" ++ toString target ++ ";"

theorem toList_edgeLine (source target : Nat) : (edgeLine source target).toList =
    "  n".toList ++ ((toString source).toList ++
      (" -> n".toList ++ ((toString target).toList ++ ";".toList))) := by
  simp only [edgeLine, String.toList_append, List.append_assoc]

theorem edgeLine_inj {source target source' target' : Nat}
    (h : edgeLine source target = edgeLine source' target') :
    source = source' ∧ target = target' := by
  have harrow : ∀ rest, ∀ c ∈ (" -> n".toList ++ rest).head?, c.isDigit = false := by
    rintro rest c ⟨⟩
    rfl
  have hend : ∀ c ∈ ";".toList.head?, c.isDigit = false := by
    rintro c ⟨⟩
    rfl
  have hchars := congrArg String.toList h
  rw [toList_edgeLine, toList_edgeLine] at hchars
  obtain ⟨hsource, hrest⟩ :=
    toString_append_inj (harrow _) (harrow _) (List.append_cancel_left hchars)
  obtain ⟨htarget, -⟩ := toString_append_inj hend hend (List.append_cancel_left hrest)
  exact ⟨hsource, htarget⟩

theorem bracket_mem_stateLine (id : Nat) (state : State) :
    '[' ∈ (stateLine id state).toList := by
  have hattributes : '[' ∈ state.label.attributes.toList := by
    cases state.label with
    | start => decide
    | finish => decide
    | word list trie => simp [Label.attributes]
  simp [stateLine, hattributes]

theorem notMem_toString {c : Char} (hc : c.isDigit = false) (n : Nat) :
    c ∉ (toString n).toList := fun hmem => by
  rw [isDigit_of_mem_toString hmem] at hc
  cases hc

theorem break_notMem_stateLine {id : Nat} {state : State}
    (h : ∀ list ∈ state.label.list?, '\n' ∉ list.toList) :
    '\n' ∉ (stateLine id state).toList := by
  simp only [stateLine, String.toList_append, List.mem_append, not_or]
  exact ⟨⟨⟨⟨by decide, notMem_toString rfl id⟩, by decide⟩, break_notMem_attributes h⟩, by decide⟩

theorem notMem_edgeLine {source target : Nat} {c : Char} (hdigit : c.isDigit = false)
    (hrest : c ∉ "  n -> n;".toList) : c ∉ (edgeLine source target).toList := by
  have hsource := notMem_toString hdigit source
  have htarget := notMem_toString hdigit target
  simp_all [edgeLine]

/-! ## Edges -/

/-- The edges of states that are numbered from a first one on, with their sources. -/
def drawnFrom : List State → Nat → List (Nat × Nat)
  | [], _ => []
  | state :: states, first => state.edges.map (first, ·) ++ drawnFrom states (first + 1)

theorem flatMap_edgeLines (states : List State) (first : Nat) :
    (states.zipIdx first).flatMap (fun (state, id) => edgeLines id state) =
      (drawnFrom states first).map fun (source, target) => edgeLine source target := by
  induction states generalizing first with
  | nil => rfl
  | cons state states ih =>
    rw [List.zipIdx_cons, List.flatMap_cons, ih, drawnFrom, List.map_append, List.map_map]
    rfl

theorem le_of_mem_drawnFrom {states : List State} {first : Nat} {edge : Nat × Nat}
    (h : edge ∈ drawnFrom states first) : first ≤ edge.1 := by
  induction states generalizing first with
  | nil => cases h
  | cons state states ih =>
    rcases List.mem_append.1 h with h | h
    · obtain ⟨target, -, rfl⟩ := List.mem_map.1 h
      exact Nat.le_refl first
    · exact Nat.le_of_succ_le (ih h)

/-- The edges of a state are those that are drawn from its number, in the same order. -/
theorem filter_drawnFrom (states : List State) (first n : Nat) :
    ((drawnFrom states first).filter (·.1 == first + n)).map Prod.snd =
      (states[n]?.map State.edges).getD [] := by
  induction states generalizing first n with
  | nil => rfl
  | cons state states ih =>
    rw [drawnFrom, List.filter_append, List.map_append, List.filter_map]
    cases n with
    | zero =>
      have hrest : (drawnFrom states (first + 1)).filter (·.1 == first + 0) = [] := by
        refine List.filter_eq_nil_iff.2 fun edge hedge => ?_
        have hle := le_of_mem_drawnFrom hedge
        rw [beq_iff_eq]
        omega
      rw [hrest]
      simp [Function.comp_def]
    | succ n =>
      have hnone : state.edges.filter ((·.1 == first + (n + 1)) ∘ (first, ·)) = [] := by
        refine List.filter_eq_nil_iff.2 fun target _ => ?_
        rw [Function.comp_apply, beq_iff_eq]
        omega
      have hnext : first + (n + 1) = first + 1 + n := by omega
      rw [hnone, hnext, ih]
      rfl

/-! ## Drawings -/

/-- No line of a drawing has a line break, if neither its name nor any list's name has one. -/
theorem break_notMem_drawingLines (hname : '\n' ∉ name.toList)
    (ha : ∀ list ∈ a.neededLists, '\n' ∉ list.toList) :
    ∀ line ∈ a.drawingLines name, '\n' ∉ line.toList := by
  have hheader : ∀ line ∈ headerLines name, '\n' ∉ line.toList := by
    simp [headerLines, hname]
  have hstates : ∀ line ∈ a.states.toList.zipIdx.map (fun (state, id) => stateLine id state),
      '\n' ∉ line.toList := by
    refine List.forall_mem_map.2 fun (state, id) hstate =>
      break_notMem_stateLine fun list hlist => ha list (mem_neededLists.2 ⟨id, ?_⟩)
    have hget : a.states[id]? = some state := by
      rw [← Array.getElem?_toList]
      exact List.mem_zipIdx_iff_getElem?.1 hstate
    rw [list?, hget]
    exact hlist
  have hedges : ∀ line ∈ (drawnFrom a.states.toList 0).map (fun (source, target) =>
      edgeLine source target), '\n' ∉ line.toList :=
    List.forall_mem_map.2 fun _ _ => notMem_edgeLine rfl (by decide)
  rw [drawingLines, flatMap_edgeLines]
  simp only [List.forall_mem_append]
  exact ⟨⟨⟨hheader, hstates⟩, hedges⟩, by decide⟩

theorem headerLines_inj (h : headerLines name = headerLines name') : name = name' := by
  have htop := (List.cons_eq_cons.1 h).1
  rwa [String.append_left_inj, String.append_right_inj] at htop

theorem stateLines_inj {states states' : List State}
    (h : states.zipIdx.map (fun (state, id) => stateLine id state) =
      states'.zipIdx.map (fun (state, id) => stateLine id state)) (n : Nat) :
    states[n]?.map (·.label.unbound) = states'[n]?.map (·.label.unbound) := by
  have hline := congrArg (·[n]?) h
  simp only [List.getElem?_map, List.getElem?_zipIdx] at hline
  generalize states[n]? = o, states'[n]? = o' at hline ⊢
  cases o with
  | none =>
    cases o' with
    | none => rfl
    | some => cases hline
  | some state =>
    cases o' with
    | none => cases hline
    | some state' => exact congrArg some (stateLine_inj (Option.some.inj hline))

/-- A state is what it stands for and its edges. -/
theorem unbound_inj {o o' : Option State}
    (hlabel : o.map (·.label.unbound) = o'.map (·.label.unbound))
    (hedges : (o.map State.edges).getD [] = (o'.map State.edges).getD []) :
    o.map State.unbound = o'.map State.unbound := by
  cases o with
  | none =>
    cases o' with
    | none => rfl
    | some => cases hlabel
  | some state =>
    cases o' with
    | none => cases hlabel
    | some state' =>
      have hedges : state.edges = state'.edges := hedges
      have hlabel : state.label.unbound = state'.label.unbound := Option.some.inj hlabel
      rw [Option.map_some, Option.map_some, State.unbound, State.unbound, hedges, hlabel]

/-- The lines of the states are those with brackets, so it is seen where those of the edges begin. -/
theorem drawingLines_inj (h : a.drawingLines name = b.drawingLines name') :
    name = name' ∧ a.unbound = b.unbound := by
  have hbracket : ∀ states : List State,
      ∀ line ∈ states.zipIdx.map (fun (state, id) => stateLine id state),
      decide ('[' ∈ line.toList) = true := fun states =>
    List.forall_mem_map.2 fun (state, id) _ => decide_eq_true (bracket_mem_stateLine id state)
  have hnone : ∀ edges : List (Nat × Nat),
      ∀ line ∈ (edges.map fun (source, target) => edgeLine source target).head?,
      decide ('[' ∈ line.toList) = false := by
    intro edges line hline
    obtain ⟨edge, -, rfl⟩ := List.mem_map.1 (List.mem_of_mem_head? hline)
    exact decide_eq_false (notMem_edgeLine rfl (by decide))
  rw [drawingLines, drawingLines, flatMap_edgeLines, flatMap_edgeLines] at h
  have hlines := List.append_cancel_right h
  rw [List.append_assoc, List.append_assoc] at hlines
  obtain ⟨hheader, hbody⟩ := List.append_inj hlines rfl
  obtain ⟨hstates, hedges⟩ := span_inj (hbracket _) (hbracket _) (hnone _) (hnone _) hbody
  have hdrawn : drawnFrom a.states.toList 0 = drawnFrom b.states.toList 0 :=
    List.map_injective_iff.2 (fun _ _ hline => Prod.ext_iff.2 (edgeLine_inj hline)) hedges
  have hsame : a.states.toList.map State.unbound = b.states.toList.map State.unbound := by
    refine List.ext_getElem? fun n => ?_
    rw [List.getElem?_map, List.getElem?_map]
    refine unbound_inj (stateLines_inj hstates n) ?_
    rw [← filter_drawnFrom _ 0, ← filter_drawnFrom _ 0, hdrawn]
  refine ⟨headerLines_inj hheader, congrArg Automaton.mk (Array.toList_inj.1 ?_)⟩
  rw [Array.toList_map, Array.toList_map, hsame]

/-- A drawing is of one automaton, but for its tries, and made under one name. -/
theorem drawing_inj (hname : '\n' ∉ name.toList) (hname' : '\n' ∉ name'.toList)
    (ha : ∀ list ∈ a.neededLists, '\n' ∉ list.toList)
    (hb : ∀ list ∈ b.neededLists, '\n' ∉ list.toList) (h : a.drawing name = b.drawing name') :
    name = name' ∧ a.unbound = b.unbound := by
  have hlines := splitWhere_join (break_notMem_drawingLines hname ha)
  have hlines' := splitWhere_join (break_notMem_drawingLines hname' hb)
  rw [← drawing, h, drawing, hlines'] at hlines
  have hsame := List.append_cancel_right hlines
  exact drawingLines_inj (List.map_injective_iff.2 (fun _ _ => String.toList_injective) hsame.symm)

end PhraseSearch.Automaton
