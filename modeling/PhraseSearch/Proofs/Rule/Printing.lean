import PhraseSearch.Proofs.Grammar.Roots
import PhraseSearch.Proofs.Rule.Writing
import PhraseSearch.Rule.Printer

/-!
# Printed rules are read again

The printed form of a rule is one of its texts, and the rules that have texts are those with valid
names and bounds.  The grammar of a line has the tree of the rule that is read from it: alternatives
and elements in order, a single element without a sequence around it, bounds as repetitions.

    a printable rule is printed as one of its texts                    (Printable.written)
    all rules that have a text are printable                           (exists_written_iff)
    the grammar of a line is one tree                                  (exists_tree_of_read)
    reading, trees and printing                                        (read_iff_written)
-/

namespace PhraseSearch

open Text Rule

/-! ## Printing -/

theorem numeral_toDigits {n : Nat} (h : n < UInt64.size) : Numeral n (Nat.toDigits 10 n) :=
  readNumber?_eq_some_iff.1 (readNumber?_toDigits h)

theorem Bounds.written_print {b : Bounds} (hlow : b.low < UInt64.size)
    (hhigh : ∀ high ∈ b.high, b.low ≤ high ∧ high < UInt64.size) :
    Bounds.Written (some b) b.print := by
  obtain ⟨low, high⟩ := b
  cases high with
  | none => exact .atLeast (numeral_toDigits hlow)
  | some high =>
    obtain ⟨hle, hlt⟩ := hhigh high rfl
    have hwritten := Bounds.Written.between (numeral_toDigits hlow) (numeral_toDigits hlt) hle
    rwa [List.append_assoc] at hwritten

theorem Atom.written_print {atom : Atom} (h : isName atom.name.toList = true) :
    atom.Written atom.print := by
  cases atom with
  | list name =>
    have hwritten := Atom.Written.list h
    rwa [String.ofList_toList] at hwritten
  | rule name =>
    have hwritten := Atom.Written.rule h
    rwa [String.ofList_toList] at hwritten

theorem Element.Printable.written {e : Element} (h : e.Printable) : e.Written e.print := by
  obtain ⟨atom, bounds⟩ := e
  refine ⟨_, _, Atom.written_print h.name, ?_, rfl⟩
  cases bounds with
  | none => exact .none
  | some b => exact Bounds.written_print (h.low b rfl) (h.high b rfl)

namespace Rule

theorem alternativeWritten_print {elements : List Element} (hne : elements ≠ [])
    (h : ∀ e ∈ elements, e.Printable) :
    AlternativeWritten elements (printAlternative elements) := by
  induction elements with
  | nil => exact (hne rfl).elim
  | cons e elements ih =>
    have he := (h e (by simp)).written
    cases elements with
    | nil =>
      rw [printAlternative, List.map_singleton, List.intercalate_singleton]
      exact .last he
    | cons next elements =>
      rw [printAlternative, List.map_cons, List.map_cons, List.intercalate_cons_cons,
        List.append_assoc]
      exact .more he (ih (by simp) fun f hf => h f (List.mem_cons_of_mem _ hf))

theorem bodyWritten_print {alternatives : List (List Element)} (hne : alternatives ≠ [])
    (h : ∀ elements ∈ alternatives, AlternativeWritten elements (printAlternative elements)) :
    BodyWritten alternatives (['|'].intercalate (alternatives.map printAlternative)) := by
  induction alternatives with
  | nil => exact (hne rfl).elim
  | cons elements alternatives ih =>
    have helements := h elements (by simp)
    cases alternatives with
    | nil =>
      rw [List.map_singleton, List.intercalate_singleton]
      exact .last helements
    | cons next alternatives =>
      have hrest := ih (by simp) fun f hf => h f (List.mem_cons_of_mem _ hf)
      have hwritten := BodyWritten.more helements (.inl rfl) (.inl rfl) hrest
      rw [List.append_nil] at hwritten
      rw [List.map_cons, List.map_cons, List.intercalate_cons_cons, List.append_assoc]
      exact hwritten

/-- The printed form is one way of writing a rule. -/
theorem Printable.written {r : Rule} (h : r.Printable) : r.Written r.print :=
  ⟨r.name.toList, _, h.name, String.ofList_toList.symm,
    bodyWritten_print h.alternatives fun elements helements =>
      alternativeWritten_print (h.nonempty elements helements) (h.elements elements helements), rfl⟩

end Rule

/-! ## What can be printed -/

theorem Element.Written.printable {e : Element} {cs : List Char} (h : e.Written cs) :
    e.Printable := by
  obtain ⟨atom, bounds⟩ := e
  obtain ⟨text, quantifier, htext, hquantifier, -⟩ := h
  have hname : isName atom.name.toList = true := by
    cases htext with
    | list hname => rwa [Atom.name, String.toList_ofList]
    | rule hname => rwa [Atom.name, String.toList_ofList]
  refine ⟨hname, ?_, ?_⟩
  · rintro b hb
    obtain rfl : bounds = some b := hb
    cases hquantifier with
    | optional | any | many => decide
    | exactly hn | atLeast hn | between hn => exact hn.bound
  · rintro b hb high hhigh
    obtain rfl : bounds = some b := hb
    cases hquantifier with
    | optional => cases hhigh; decide
    | any | many | atLeast => cases hhigh
    | exactly hn => cases hhigh; exact ⟨Nat.le_refl _, hn.bound⟩
    | between hn hm hle => cases hhigh; exact ⟨hle, hm.bound⟩

namespace Rule

variable {cs : List Char} {elements : List Element} {alternatives : List (List Element)} {r : Rule}

theorem AlternativeWritten.printable (h : AlternativeWritten elements cs) :
    elements ≠ [] ∧ ∀ e ∈ elements, e.Printable := by
  induction h with
  | last h => exact ⟨by simp, List.forall_mem_singleton.2 h.printable⟩
  | more h _ ih => exact ⟨by simp, List.forall_mem_cons.2 ⟨h.printable, ih.2⟩⟩

theorem BodyWritten.printable (h : BodyWritten alternatives cs) : alternatives ≠ [] ∧
    ∀ elements ∈ alternatives, elements ≠ [] ∧ ∀ e ∈ elements, e.Printable := by
  induction h with
  | last h => exact ⟨by simp, List.forall_mem_singleton.2 h.printable⟩
  | more h _ _ _ ih => exact ⟨by simp, List.forall_mem_cons.2 ⟨h.printable, ih.2⟩⟩

/-- The rules that can be written are those that can be printed. -/
theorem exists_written_iff : (∃ cs, r.Written cs) ↔ r.Printable := by
  refine ⟨?_, fun h => ⟨_, h.written⟩⟩
  rintro ⟨cs, name, body, hname, hrule, hbody, -⟩
  obtain ⟨hne, hall⟩ := hbody.printable
  refine ⟨?_, hne, fun elements h => (hall elements h).1, fun elements h => (hall elements h).2⟩
  rwa [hrule, String.toList_ofList]

end Rule

/-! ## Trees -/

namespace Grammar

theorem rulesOf_singleton {line : String} {r : Rule}
    (h : Rule.read (Rule.canonicalLine line).toList = .ok r) : rulesOf [line] = .ok [r] := by
  have hne : (Rule.canonicalLine line).isEmpty = false := by
    rw [← Bool.not_eq_true, String.isEmpty_iff]
    intro hempty
    rw [hempty] at h
    cases h
  have hnone : (∅ : Std.TreeMap String Nat)[Rule.canonicalLine line]? = none :=
    Std.TreeMap.getElem?_emptyc
  have hread : readFrom ∅ 1 [line] = .ok [r] := by
    rw [readFrom]
    simp only [hne, hnone, h]
    rfl
  rw [rulesOf, hread]

theorem roots_ofRules_singleton (r : Rule) : ∃ root, (ofRules [r]).roots = [(r.name, root)] := by
  have hname : (∅ : Std.TreeMap String Nat)[r.name]? = none := Std.TreeMap.getElem?_emptyc
  have hroots : (ofRules [r]).roots = (Network.Planting.plantRules ∅ [r] .empty).1 := rfl
  rw [hroots, plantRules_of_none hname]
  exact ⟨_, rfl⟩

/-- The grammar of a line has one tree, that of the rule. -/
theorem exists_tree_of_read {line : String} {r : Rule}
    (h : Rule.read (Rule.canonicalLine line).toList = .ok r) :
    ∃ g root, ofLines [line] = .ok g ∧ g.roots = [(r.name, root)] ∧
      g.network.pattern? root =
        some (.alternation (r.alternatives.map Pattern.ofAlternative)) := by
  obtain ⟨root, hroots⟩ := roots_ofRules_singleton r
  obtain ⟨depth, hrooted⟩ := rooted_ofRules [r]
  have htree := (hrooted.tree (r.name, root) (by simp [hroots])).pattern?_eq
  refine ⟨ofRules [r], root, by rw [ofLines, rulesOf_singleton h]; rfl, hroots, ?_⟩
  rw [htree]
  simp [Pattern.ofRules, Rule.alternativesOf]

end Grammar

namespace Rule

/-- A line is read as a rule if and only if its canonical form may be written for that rule, and
then the tree of its grammar is that of the rule.  Every rule with valid names and bounds is printed
in canonical form, and read again as it was. -/
theorem read_iff_written (line : String) (r : Rule) :
    (read (canonicalLine line).toList = .ok r ↔ r.Written (canonicalLine line).toList) ∧
    (r.Written (canonicalLine line).toList → ∃ g root, Grammar.ofLines [line] = .ok g ∧
      g.roots = [(r.name, root)] ∧ g.network.pattern? root =
        some (.alternation (r.alternatives.map Pattern.ofAlternative))) ∧
    (r.Printable → canonicalLine (String.ofList r.print) = String.ofList r.print ∧
      read r.print = .ok r ∧ ∃ g root, Grammar.ofLines [String.ofList r.print] = .ok g ∧
      g.roots = [(r.name, root)] ∧ g.network.pattern? root =
        some (.alternation (r.alternatives.map Pattern.ofAlternative))) := by
  have hiff : read (canonicalLine line).toList = .ok r ↔
      r.Written (canonicalLine line).toList := by
    rw [toList_canonicalLine]
    exact read_canonical_eq_ok_iff
  refine ⟨hiff, fun h => Grammar.exists_tree_of_read (hiff.2 h), fun h => ?_⟩
  have hcanonical : canonicalLine (String.ofList r.print) = String.ofList r.print := by
    rw [canonicalLine, String.toList_ofList, h.written.canonical_eq]
  refine ⟨hcanonical, h.written.read_eq, Grammar.exists_tree_of_read ?_⟩
  rw [hcanonical, String.toList_ofList]
  exact h.written.read_eq

/-- Quantifiers are printed with explicit bounds, and spaces around bars are not. -/
theorem read_iff_written_of_two_alternatives :
    ∃ r : Rule, r.Printable ∧
      r.Written (canonicalLine "phrase -> <det>? thing{2,} | <name>  # a phrase").toList ∧
      r.print = "phrase-><det>{0,1} thing{2,}|<name>".toList ∧ read r.print = .ok r ∧
      ∃ g root, Grammar.ofLines ["phrase -> <det>? thing{2,} | <name>  # a phrase"] = .ok g ∧
        g.roots = [("phrase", root)] ∧ g.network.pattern? root = some (.alternation
          [.sequence [.repetition (.terminal "det") ⟨0, some 1⟩,
            .repetition (.reference "thing") ⟨2, none⟩], .terminal "name"]) := by
  let r : Rule := ⟨"phrase", [[⟨.list "det", some ⟨0, some 1⟩⟩, ⟨.rule "thing", some ⟨2, none⟩⟩],
    [⟨.list "name", none⟩]]⟩
  obtain ⟨hread, htree, hprint⟩ :=
    read_iff_written "phrase -> <det>? thing{2,} | <name>  # a phrase" r
  have hwritten := hread.1 (by decide +kernel)
  have hprintable : r.Printable := by decide +kernel
  obtain ⟨-, hagain, -⟩ := hprint hprintable
  exact ⟨r, hprintable, hwritten, by decide +kernel, hagain, htree hwritten⟩

end Rule

end PhraseSearch
