import LayoutLint.Proofs.Layout.Blanks
import LayoutLint.Proofs.Layout.Ending
import LayoutLint.Proofs.Layout.Positions
import LayoutLint.Proofs.Rules.Reports
import LayoutLint.Proofs.Syntax.TokenIds
/-!
# Regions — where violations are reported

Every violation of a rule of this library is reported at a region that starts and ends between characters of the text.
A region does not end in front of where it starts, and its lines and columns are in order too
(`Registry.region_of_mem_analyze`). Two rules report where a statement ends, and the end that is found for one in a
broken program can lie in front of it; not so when no `try` and no `while` has a closing bracket right behind it.
-/
namespace LayoutLint

open Text (IsBoundary width)

/-- Both ends of the region stand between characters of the text. -/
structure Document.Cuts (d : Document) (s : Span) : Prop where
  start : IsBoundary d.text.toList s.start
  stop : IsBoundary d.text.toList s.stop

namespace Document

variable {d : Document}

/-- From the start of one word to the end of another. -/
theorem cuts_words (d : Document) {i j : Nat} (hi : i < d.size) (hj : j < d.size) :
    d.Cuts ⟨(d.span i).start, (d.span j).stop⟩ :=
  ⟨(d.isBoundary_span hi).1, (d.isBoundary_span hj).2⟩

theorem start_le_stop (d : Document) {i j : Nat} (hij : i ≤ j) (hj : j < d.size) :
    (d.span i).start ≤ (d.span j).stop :=
  Nat.le_trans (d.span_start_mono hij hj) (Nat.le_add_right _ _)

/-- What starts with a word is not empty. -/
theorem Proper.start_lt_stop (h : d.Proper) {i j : Nat} (hij : i ≤ j) (hi : i < d.endOfFile) (hj : j < d.size) :
    (d.span i).start < (d.span j).stop := by
  rcases Nat.lt_or_eq_of_le hij with hlt | rfl
  · exact Nat.lt_of_lt_of_le (h.span_start_lt hi) (Nat.le_trans (d.span_stop_le hlt hj) (Nat.le_add_right _ _))
  · exact h.span_start_lt hi

theorem cuts_line (d : Document) {l : Line} (hl : l ∈ d.lines.lines.toList) : d.Cuts l.span := by
  rw [lines_toList] at hl
  obtain ⟨front, rest, htext, hstart⟩ := exists_of_mem_linesFrom d.text.toList 0 l hl
  rw [Nat.zero_add] at hstart
  have hstop : l.stop = width front + width l.text.toList := by rw [Line.stop, hstart, Text.utf8ByteSize_eq_width]
  constructor
  · rw [htext, Line.span, hstart]
    exact Text.isBoundary_append _ _
  · rw [htext, Line.span, hstop]
    exact (Text.isBoundary_append _ _).append_left _

/-- The end of the text is reported from a word or a line on. -/
theorem Proper.cuts_finalBreak? (h : d.Proper) {b : FinalBreak} (hb : d.finalBreak? = some b) :
    d.Cuts b.span ∧ b.span.start ≤ b.span.stop := by
  have hend : IsBoundary d.text.toList d.length := by
    rw [length, Text.utf8ByteSize_eq_width]
    exact Text.isBoundary_width _
  have hle : ∀ {n : Nat}, IsBoundary d.text.toList n → n ≤ d.length := fun hn => by
    rw [length, Text.utf8ByteSize_eq_width]
    exact hn.le
  have hword : (d.lastToken?.map fun last => (d.span last).stop).getD 0 = d.gapStart d.endOfFile := by
    rw [h.lastToken?_eq]
    cases d.endOfFile with
    | zero => rfl
    | succ m => rfl
  rw [finalBreak?] at hb
  split at hb
  · cases hb
  simp only [hword] at hb
  split at hb
  · cases hb
  rename_i last before hlines
  split at hb
  · obtain rfl := Option.some.inj hb
    have hstart := d.isBoundary_gap (j := d.endOfFile) (by have := d.size_eq; omega) 0
    exact ⟨⟨hstart, hend⟩, hle hstart⟩
  · obtain ⟨first, hfirst, rfl⟩ := Option.map_eq_some_iff.1 hb
    have hmem : first ∈ before := (List.takeWhile_sublist _).subset (List.mem_of_getLast? hfirst)
    have hcuts := d.cuts_line (l := first) (List.mem_reverse.1 (hlines ▸ List.mem_cons_of_mem _ hmem))
    exact ⟨⟨hcuts.start, hend⟩, hle hcuts.start⟩

theorem closingParen_go (d : Document) : ∀ (ids : List Nat) (depth : Nat),
    closingParen.go d depth ids ∈ ids ∨ closingParen.go d depth ids = d.endOfFile
  | [], _ => .inr rfl
  | i :: ids, depth => by
    have tail : ∀ depth, closingParen.go d depth ids ∈ i :: ids ∨ closingParen.go d depth ids = d.endOfFile :=
      fun depth => (d.closingParen_go ids depth).imp_left (List.mem_cons_of_mem _)
    rw [closingParen.go]
    split
    · exact tail _
    split
    · split
      · exact .inl List.mem_cons_self
      · exact tail _
    · exact tail _

/-- A parenthesis is not closed in front of where it stands. -/
theorem closingParen_bounds (d : Document) {opening : Nat} (h : opening < d.size) :
    opening ≤ d.closingParen opening ∧ d.closingParen opening < d.size := by
  have hs := d.size_eq
  rcases d.closingParen_go (List.range' opening (d.size - opening)) 0 with hmem | heof
  · have := List.mem_range'_1.1 hmem
    rw [closingParen]
    omega
  · rw [closingParen, heof]
    omega

end Document

namespace RuleContext

variable {c : RuleContext}

/-- What a call goes over. -/
theorem extent_callAt (c : RuleContext) (callee opening : Nat) : ∃ first last,
    (c.callAt callee opening).extent = ⟨(c.document.span first).start, (c.document.span last).stop⟩ ∧
      ((∃ n ∈ c.tree.nodes, n.kind = .memberInvocation ∧ n.extent? = some (first, last) ∧ last ∈ n.tokens) ∨
        (first = callee ∧ last = c.document.closingParen opening)) := by
  rw [callAt]
  split
  · rename_i receiver name closing hfound
    obtain ⟨n, hn, hsome⟩ := List.exists_of_findSome?_eq_some hfound
    refine ⟨receiver.first, closing, rfl, .inl ⟨n, List.mem_reverse.1 hn, ?_⟩⟩
    split at hsome
    · split at hsome
      · cases hsome
        exact ⟨rfl, rfl, by simp [SyntaxNode.tokens]⟩
      · cases hsome
    · cases hsome
  · exact ⟨callee, c.document.closingParen opening, rfl, .inr ⟨rfl, rfl⟩⟩

/-- A call goes from one word to another that does not stand in front of it. -/
theorem extent_of_invocation (hd : c.document.Parsed) (ht : SyntaxTree.ofDocument? c.document = some c.tree)
    {callee opening : Nat} (h : .invocation callee opening ∈ c.tree.nodes) : ∃ first last,
      (c.callAt callee opening).extent = ⟨(c.document.span first).start, (c.document.span last).stop⟩ ∧
        first ≤ last ∧ first < c.document.endOfFile ∧ last < c.document.size := by
  have ho := Outline.sound_ofDocument c.document
  obtain ⟨first, last, hextent, ⟨m, hm, hkind, hext, hlast⟩ | ⟨rfl, rfl⟩⟩ := c.extent_callAt callee opening
  · obtain ⟨_, _, hcall⟩ := Outline.mem_invocations_of_tree? ht hm hkind
    obtain ⟨hle, hfirst⟩ := Outline.extent_of_mem_invocations hcall hext
    exact ⟨first, last, hextent, hle, hfirst, ho.tokens_lt hd.spelled ht _ hm _ hlast⟩
  · obtain ⟨opens, hopens⟩ := hd.gaps_of_tree ht
    have hmeets := (hopens _ h _ _ _ rfl).1
    have hnext : opening = first + 1 := hmeets.next
    have hinside : opening < c.document.endOfFile := hmeets.inside
    have hs := c.document.size_eq
    obtain ⟨hle, hclosing⟩ := c.document.closingParen_bounds (show opening < c.document.size by omega)
    exact ⟨first, _, hextent, by omega, by omega, hclosing⟩

end RuleContext

/-! ### What rules report -/

/-- What is reported of a text: a region between characters, in order if `ordered` holds. -/
structure Document.IsRegion (d : Document) (ordered : Prop) (s : Span) : Prop where
  cuts : d.Cuts s
  le : ordered → s.start ≤ s.stop

/-- The rules that report where a statement ends. -/
def Rule.TellsEnd (r : Rule) : Prop := r = .usingRequiresBraces ∨ r = .separateExitConditions

variable {c : RuleContext} {r : Rule}

theorem Rule.Marks.isRegion (hd : c.document.Parsed) (ht : SyntaxTree.ofDocument? c.document = some c.tree)
    {n : SyntaxNode} (hn : n ∈ c.tree.nodes) {s : Span} (h : r.Marks c n s) :
    c.document.IsRegion (r.TellsEnd → c.document.HeadsOpen) s := by
  have ho := Outline.sound_ofDocument c.document
  have hlt : ∀ {m : SyntaxNode} {i : Nat}, m ∈ c.tree.nodes → i ∈ m.tokens → i < c.document.size := fun hm hi =>
    ho.tokens_lt hd.spelled ht _ hm _ hi
  obtain ⟨opens, hopens⟩ := hd.gaps_of_tree ht
  have hgap : ∀ {m : SyntaxNode} {k left right}, m ∈ c.tree.nodes → m.gap? = some (k, left, right) →
      right = left + 1 ∧ right < c.document.size := fun {m k left right} hm hg => by
    have hmeets := (hopens m hm k left right hg).1
    have hinside : right < c.document.endOfFile := hmeets.inside
    have := c.document.size_eq
    exact ⟨hmeets.next, by omega⟩
  cases h with
  | gap hg hs =>
    obtain ⟨rfl, hright⟩ := hgap hn hg
    rcases hs with rfl | rfl
    · exact ⟨⟨(c.document.isBoundary_span (Nat.lt_of_succ_lt hright)).2, (c.document.isBoundary_span hright).1⟩,
        fun _ => c.document.span_stop_le (Nat.lt_succ_self _) hright⟩
    · exact ⟨c.document.cuts_words hright hright, fun _ => c.document.start_le_stop (Nat.le_refl _) hright⟩
  | @body keyword body kind =>
    have hfirst : body.first < c.document.size := hlt hn (by simp [SyntaxNode.tokens])
    have hlast : body.last < c.document.size := hlt hn (by simp [SyntaxNode.tokens])
    exact ⟨c.document.cuts_words hfirst hlast, fun hopen =>
      c.document.start_le_stop (ho.extent_le ht hn (.inr (hopen (.inl rfl))) rfl) hlast⟩
  | @branches extent disjunction bodyFirst endsWithElse =>
    have hfirst : extent.first < c.document.size := hlt hn (by simp [SyntaxNode.tokens])
    have hlast : extent.last < c.document.size := hlt hn (by simp [SyntaxNode.tokens])
    exact ⟨c.document.cuts_words hfirst hlast, fun hopen =>
      c.document.start_le_stop (ho.extent_le ht hn (.inr (hopen (.inr rfl))) rfl) hlast⟩
  | call hcall =>
    obtain ⟨first, last, hextent, hle, hfirst, hlast⟩ := RuleContext.extent_of_invocation hd ht hcall
    have hs := c.document.size_eq
    rw [hextent]
    exact ⟨c.document.cuts_words (by omega) hlast, fun _ => c.document.start_le_stop hle hlast⟩
  | operator =>
    have htoken := hlt hn (List.mem_singleton.2 rfl)
    exact ⟨c.document.cuts_words htoken htoken, fun _ => c.document.start_le_stop (Nat.le_refl _) htoken⟩

/-- **What a rule of this library reports is a region of the text.** -/
theorem Rule.Reports.isRegion (hd : c.document.Parsed) (ht : SyntaxTree.ofDocument? c.document = some c.tree)
    (hr : r ∈ builtinRules) {w : Violation} (h : r.Reports c w) :
    c.document.IsRegion (r.TellsEnd → c.document.HeadsOpen) w.span ∧
      w.location = some (c.document.location w.span) := by
  rcases h with ⟨node, hnode, -, hw⟩ | ⟨-, ws, hws, hw⟩
  · obtain ⟨message, span, rfl, hmarks⟩ := Rule.exists_of_mem_checkNode hr hw
    exact ⟨hmarks.isRegion hd ht hnode, rfl⟩
  · obtain ⟨message, spans, rfl, hspans⟩ := Rule.checkDocument_eq hr hws
    obtain ⟨span, hspan, rfl⟩ := List.mem_map.1 hw
    refine ⟨?_, rfl⟩
    rcases hspans with ⟨-, rfl⟩ | ⟨-, rfl⟩ | ⟨-, rfl⟩ | ⟨-, rfl⟩
    · obtain ⟨j, hj, i, t, ht, -, rfl⟩ := hd.mem_trailingBlanks.1 hspan
      obtain ⟨hstart, hstop⟩ := c.document.isBoundary_placeAt hj ht
      exact ⟨⟨hstart, hstop⟩, fun _ => Nat.le_add_right _ _⟩
    · rw [Option.mem_toList] at hspan
      obtain ⟨b, hb, rfl⟩ := Option.map_eq_some_iff.1 hspan
      obtain ⟨hcuts, hle⟩ := hd.proper.cuts_finalBreak? hb
      exact ⟨hcuts, fun _ => hle⟩
    · obtain ⟨l, hl, rfl⟩ := List.mem_map.1 hspan
      exact ⟨c.document.cuts_line (List.mem_of_mem_filter hl), fun _ => Nat.le_add_right _ _⟩
    · cases hspan

namespace Registry

variable {R : Registry}

/-- **Every violation is reported at a region of the text**: its ends stand between characters of the text, its location
is that of its ends, and both are in order. For the two rules that report where a statement ends, order is told of
texts in which no `try` and no `while` has a closing bracket right behind it. -/
theorem region_of_mem_analyze (hR : R.Builtin) {s : String} {p : Program} (hp : Program.parse s = .ok p)
    {options : AnalyzerOptions} {cancelled : Bool} {vs : List Violation}
    (hvs : R.analyze { document := p.document, tree := p.tree, options, cancelled } = .ok vs) {v : Violation}
    (hv : v ∈ vs) :
    IsBoundary s.toList v.span.start ∧ IsBoundary s.toList v.span.stop ∧ v.span.stop ≤ s.utf8ByteSize ∧
    v.location = some ⟨p.document.position v.span.start, p.document.position v.span.stop⟩ ∧
    (p.document.HeadsOpen ∨ v.ruleId ∉ [Rule.usingRequiresBraces.id, Rule.separateExitConditions.id] →
      v.span.start ≤ v.span.stop ∧
        (p.document.position v.span.start).Le (p.document.position v.span.stop)) := by
  obtain ⟨-, hdoc, htree⟩ := Program.parse_eq_ok_iff.1 hp
  obtain ⟨hd, rfl⟩ := Document.parsed_of_ofSource hdoc
  let c : RuleContext := { document := p.document, tree := p.tree, options, cancelled }
  obtain ⟨a, ha, w, hw, rfl⟩ := (mem_analyze hvs).1 hv
  obtain ⟨hregion, hlocation⟩ := hw.isRegion (c := c) hd htree (hR a ha)
  have hid : w.ruleId = a.rule.id := hw.ruleId (hR a ha)
  have hstop : w.span.stop ≤ p.document.text.utf8ByteSize := by
    rw [Text.utf8ByteSize_eq_width]
    exact hregion.cuts.stop.le
  refine ⟨hregion.cuts.start, hregion.cuts.stop, hstop, hlocation, fun hfree => ?_⟩
  have hle : w.span.start ≤ w.span.stop := by
    refine hregion.le fun hends => hfree.resolve_right fun hnot => hnot ?_
    show w.ruleId ∈ _
    rw [hid]
    rcases hends with hrule | hrule <;> simp [hrule]
  refine ⟨hle, ?_⟩
  show (p.document.lines.position _).Le (p.document.lines.position _)
  rw [p.document.lines_eq]
  exact LineTable.position_le hle hregion.cuts.stop

/-- A statement that has to stand in braces, reported from its first word to its semicolon. -/
theorem region_of_mem_analyze_using : ∃ p v, Program.parse "using (x) y;\n" = .ok p ∧ p.document.HeadsOpen ∧
    builtin.analyze { document := p.document, tree := p.tree } = .ok [v] ∧ v.span = ⟨10, 12⟩ ∧
    v.location = some ⟨p.document.position 10, p.document.position 12⟩ ∧
    (p.document.position 10).Le (p.document.position 12) := by
  obtain ⟨p, hp, h⟩ := exists_ok_of_any (e := Program.parse "using (x) y;\n") (p := fun p =>
    (builtin.checkDocument { document := p.document, tree := p.tree }).toOption.any fun found =>
      let vs := builtin.checkNodes { document := p.document, tree := p.tree } ++ found
      decide p.document.HeadsOpen && (decide (vs.Pairwise fun v w : Violation => v.le w = true) &&
        decide (vs.eraseReps.map Violation.span = [⟨10, 12⟩])))
    (by decide +kernel)
  obtain ⟨found, hfound, h⟩ := exists_ok_of_any h
  simp only [Bool.and_eq_true, decide_eq_true_eq] at h
  obtain ⟨hopen, hle, hspans⟩ := h
  have hvs := analyze_of_pairwise (c := { document := p.document, tree := p.tree }) rfl hfound hle
  obtain ⟨v, hv, hspan⟩ := List.map_eq_singleton_iff.1 hspans
  rw [hv] at hvs
  obtain ⟨-, -, -, hlocation, hordered⟩ := region_of_mem_analyze builtin_builtin hp hvs (List.mem_singleton.2 rfl)
  rw [hspan] at hlocation hordered
  exact ⟨p, v, hp, hopen, hvs, hspan, hlocation, (hordered (.inl hopen)).2⟩

-- The `try` has no block, so its end is looked for at the brace behind it, which leads back to the brace in front.
example : (Program.parse "\x7b\nusing (x) try\n\x7d\n").toOption.any (fun p =>
    (builtin.checkNodes { document := p.document, tree := p.tree }).map Violation.span == [⟨12, 1⟩]) = true := by
  decide +kernel

end Registry

end LayoutLint
