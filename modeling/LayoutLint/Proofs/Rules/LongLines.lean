import LayoutLint.Proofs.Layout.LineTable
import LayoutLint.Proofs.Rules.Independence
import LayoutLint.Proofs.Rules.Regions
/-!
# LongLines — lines of too many characters

A text splits into its lines in one way (`SplitsInto.unique`). A line has no more characters than bytes, so counting the
bytes first passes over no long line (`Line.isLong_iff`), and both ends of a line have its number
(`LineTable.location_span`). So the rule on the length of lines reports the lines with more characters than the limit,
in their order and one each, whatever stands in them (`Registry.analyze_longLines`).
-/
namespace LayoutLint

open Text (IsBoundary width)

/-! ### The lines that a text splits into -/

/-- The lines of a text that starts at an offset: written one after another they are the text, and each stands where it
says and ends in a whole line break, but for the last one, which no break ends. -/
structure SplitsInto (start : Nat) (cs : List Char) (lines : List Line) : Prop where
  nonempty : lines ≠ []
  cover : concatLines lines = cs
  stands : ∀ before l after, lines = before ++ l :: after → l.Stands start before after

theorem splitsInto_linesFrom (start : Nat) (cs : List Char) : SplitsInto start cs (linesFrom start cs) where
  nonempty := linesFrom_ne_nil start cs
  cover := concat_linesFrom start cs
  stands _ _ _ h := linesFrom_split h

namespace SplitsInto

variable {start : Nat} {cs : List Char} {l : Line} {rest : List Line}

theorem head (h : SplitsInto start cs (l :: rest)) : l.Stands start [] rest := h.stands [] l rest rfl

theorem tail (h : SplitsInto start cs (l :: rest)) (hrest : rest ≠ []) :
    SplitsInto (start + width (l.text.toList ++ l.lineBreak.toList)) (concatLines rest) rest where
  nonempty := hrest
  cover := rfl
  stands before m after hsplit := by
    obtain ⟨hstart, hunbroken, hends⟩ := h.stands (l :: before) m after (by rw [hsplit]; rfl)
    refine ⟨?_, hunbroken, hends⟩
    rw [hstart, concatLines_cons, ← List.append_assoc, Text.width_append (l.text.toList ++ _), Nat.add_assoc]

/-- The one line of a text without a break. -/
theorem of_unbroken (h : SplitsInto start cs (l :: rest)) (hcs : Unbroken cs) :
    l :: rest = [⟨start, String.ofList cs, ""⟩] := by
  have hcover := h.cover
  rw [concatLines_cons] at hcover
  rcases h.head.ends with ⟨rfl, hbreak⟩ | ⟨-, hbreak, -⟩
  · have hstart := h.head.at_start
    have htext : l.text = String.ofList cs := by
      rw [← hcover, hbreak, concatLines_nil, ← String.toList_inj, String.toList_ofList]
      exact (List.append_nil _).symm
    rw [← htext, ← hbreak, ← Nat.add_zero start]
    cases l
    simp only at hstart
    rw [hstart]
    rfl
  · obtain ⟨c, e, he⟩ := List.exists_cons_of_ne_nil hbreak.ne_nil
    have hc := hbreak.all c (he ▸ List.mem_cons_self)
    rw [hcs c (by rw [← hcover, he]; simp)] at hc
    cases hc

/-- The first line of a text with a break. -/
theorem of_line {q e r : List Char} (h : SplitsInto start (q ++ (e ++ r)) (l :: rest)) (hq : Unbroken q)
    (he : IsBreak e) (hr : EndsBefore e r) :
    l = ⟨start, String.ofList q, String.ofList e⟩ ∧ concatLines rest = r ∧ rest ≠ [] := by
  have hends : ∀ {e r : List Char}, IsBreak e → LineEnd (e ++ r) := by
    rintro e r (rfl | rfl | rfl) <;> exact lineEnd_cons.2 (by decide)
  have hcover := h.cover
  rw [concatLines_cons] at hcover
  obtain ⟨hstart, hunbroken, ⟨rfl, hbreak⟩ | ⟨hrest, hbreak, hwhole⟩⟩ := h.head
  · -- A last line holds no break, but the text does.
    obtain ⟨c, e, rfl⟩ := List.exists_cons_of_ne_nil he.ne_nil
    rw [hbreak, concatLines_nil] at hcover
    have hc := hunbroken c (by rw [← List.append_nil l.text.toList]; exact hcover ▸ by simp)
    rw [he.all c List.mem_cons_self] at hc
    cases hc
  · obtain ⟨htext, htail⟩ : l.text.toList = q ∧ l.lineBreak.toList ++ concatLines rest = e ++ r := by
      have hl := takeWhile_unbroken hunbroken (hends (r := concatLines rest) hbreak)
      have hr := takeWhile_unbroken hq (hends (r := r) he)
      rw [hcover] at hl
      exact ⟨hl.1.symm.trans hr.1, hl.2.symm.trans hr.2⟩
    obtain ⟨hbreak', htail⟩ := List.append_inj htail (by
      rw [← breakLength_append hbreak hwhole, ← breakLength_append he hr, htail])
    refine ⟨?_, htail, hrest⟩
    rw [← htext, ← hbreak', String.ofList_toList, String.ofList_toList]
    cases l
    simp only at hstart
    rw [hstart]
    rfl

/-- **A text splits into its lines in one way.** -/
theorem unique {lines : List Line} (h : SplitsInto start cs lines) : lines = linesFrom start cs := by
  induction cs using lines_induction generalizing start lines with
  | last q hq =>
    obtain ⟨l, rest, rfl⟩ := List.exists_cons_of_ne_nil h.nonempty
    rw [h.of_unbroken hq, linesFrom_unbroken _ hq]
  | line q e r hq he hr ih =>
    obtain ⟨l, rest, rfl⟩ := List.exists_cons_of_ne_nil h.nonempty
    obtain ⟨rfl, rfl, hrest⟩ := h.of_line hq he hr
    have htail := h.tail hrest
    rw [String.toList_ofList, String.toList_ofList] at htail
    rw [linesFrom_line _ hq he hr]
    exact congrArg (_ :: ·) (ih htail)

end SplitsInto

/-! ### Long lines -/

theorem Text.length_le_width (cs : List Char) : cs.length ≤ width cs := by
  induction cs with
  | nil => exact Nat.le_refl _
  | cons c cs ih =>
    have := Char.utf8Size_pos c
    rw [List.length_cons, width_cons]
    omega

/-- **A line has no more characters than bytes**, so whether it is long is told by its characters. -/
theorem Line.isLong_iff (l : Line) (limit : Nat) :
    (decide (limit < l.stop - l.start) && decide (limit < l.length)) = decide (limit < l.text.length) := by
  have hle : l.text.length ≤ l.stop - l.start := by
    rw [stop, Nat.add_sub_cancel_left, Text.utf8ByteSize_eq_width, ← String.length_toList]
    exact Text.length_le_width _
  by_cases h : limit < l.text.length
  · simp only [length, h, Nat.lt_of_lt_of_le h hle, decide_true, Bool.and_self]
  · simp only [length, h, decide_false, Bool.and_false]

/-- A line ends in front of where a later one starts. -/
theorem pairwise_stop_lt_start (start : Nat) (cs : List Char) :
    (linesFrom start cs).Pairwise fun l m => l.stop < m.start := by
  induction cs using lines_induction generalizing start with
  | last q hq =>
    rw [linesFrom_unbroken start hq]
    exact List.pairwise_singleton _ _
  | line q e r hq he hr ih =>
    rw [linesFrom_line start hq he hr]
    refine List.pairwise_cons.2 ⟨fun m hm => ?_, ih _⟩
    have hle := start_of_mem_linesFrom.1 m hm
    have hpos := he.width_pos
    rw [Text.width_append] at hle
    rw [Line.stop, Text.utf8ByteSize_eq_width, String.toList_ofList]
    show start + width q < m.start
    omega

namespace LineTable

variable {s : String} {i : Nat} {l : Line}

/-- What is not behind the end of a line is on that line, if it is not in front of it. -/
theorem lineIndex_eq_of_line (h : (ofString s).lines[i]? = some l) {n : Nat} (hstart : l.start ≤ n)
    (hstop : n ≤ l.stop) : (ofString s).lineIndex n = i := by
  obtain ⟨m, hm, hle, hbehind⟩ := lineIndex_spec s n
  have hget : ∀ k, (ofString s).lines[k]? = (linesFrom 0 s.toList)[k]? := fun k => Array.getElem?_toList.symm
  refine Nat.le_antisymm (Nat.le_of_not_lt fun hlt => ?_) (Nat.le_of_not_lt fun hlt => ?_)
  · rw [hget] at h hm
    obtain ⟨hi, rfl⟩ := List.getElem?_eq_some_iff.1 h
    obtain ⟨hk, rfl⟩ := List.getElem?_eq_some_iff.1 hm
    have := List.pairwise_iff_getElem.1 (pairwise_stop_lt_start 0 s.toList) _ _ hi hk hlt
    omega
  · have := hbehind i l h hlt
    omega

/-- **The place of a line**: from its first column to the number of its characters. -/
theorem location_span (h : (ofString s).lines[i]? = some l) :
    (ofString s).location l.span = ⟨⟨i + 1, 0⟩, ⟨i + 1, l.text.length⟩⟩ := by
  have hle : l.start ≤ l.stop := Nat.le_add_right _ _
  have hposition : ∀ {n : Nat}, l.start ≤ n → n ≤ l.stop → (ofString s).position n = ⟨i + 1, l.column n⟩ :=
    fun hstart hstop => by simp only [position, lineIndex_eq_of_line h hstart hstop, h]
  have hfirst : l.column l.start = 0 := by
    rw [Line.column, Nat.min_eq_left hle, Nat.sub_self, Text.splitAtByte?]
    rfl
  have hlast : l.column l.stop = l.text.length := by
    have hcut := Text.splitAtByte?_append l.text.toList []
    rw [List.append_nil] at hcut
    rw [Line.column, Nat.min_self, Line.stop, Nat.add_sub_cancel_left, Text.utf8ByteSize_eq_width, hcut]
    exact String.length_toList
  rw [location, Line.span, hposition (Nat.le_refl _) hle, hposition hle (Nat.le_refl _), hfirst, hlast]

end LineTable

/-! ### What the rule reports -/

/-- The violation of a line that is too long, told by the number of the line. -/
def Line.tooLong (l : Line) (number : Nat) (severity : Severity) : Violation where
  ruleId := "max-line-length"
  message := "Line is too long"
  span := ⟨l.start, l.start + l.text.utf8ByteSize⟩
  location := some ⟨⟨number, 0⟩, ⟨number, l.text.length⟩⟩
  severity

/-- The long lines are those of too many characters. -/
theorem Document.longLines_eq (d : Document) (limit : Nat) : d.longLines limit =
    ((linesFrom 0 d.text.toList).filter fun l => limit < l.text.length).map Line.span := by
  rw [longLines, d.lines_toList]
  exact congrArg (List.map _) (List.filter_congr fun l _ => l.isLong_iff limit)

/-- The violation at a line and its number is that of the line with the number. -/
theorem RuleContext.violation_line (c : RuleContext) (severity : Severity) {l : Line} {number : Nat}
    (h : (l, number) ∈ (linesFrom 0 c.document.text.toList).zipIdx 1) :
    { c.violation "max-line-length" "Line is too long" l.span with severity } = l.tooLong number severity := by
  obtain ⟨hnumber, hget⟩ := List.mk_mem_zipIdx_iff_le_and_getElem?_sub.1 h
  have hlocation := LineTable.location_span (s := c.document.text) (Array.getElem?_toList.symm.trans hget)
  rw [Nat.sub_add_cancel hnumber] at hlocation
  simp only [violation, Document.location, c.document.lines_eq, hlocation]
  rfl

theorem filter_eq_map_zipIdx {α : Type} (p : α → Bool) (n : Nat) (l : List α) :
    l.filter p = ((l.zipIdx n).filter fun x => p x.1).map Prod.fst := by
  conv_lhs => rw [← List.zipIdx_map_fst n l]
  exact List.filter_map

namespace Registry

variable {severity : Severity} {c : RuleContext}

/-- Of one rule that looks at the whole document, an analysis lists what the rule reports, if that is in order. -/
theorem analyze_of_document {rule : Rule} (hkinds : rule.nodeKinds = []) (hc : c.cancelled = false)
    {found : List Violation} (h : rule.checkDocument c = .ok found)
    (horder : found.Pairwise fun v w => v.span.start < w.span.start) :
    analyze ⟨[{ rule, severity }]⟩ c = .ok (found.map fun v => { v with severity }) := by
  have hnodes : checkNodes ⟨[{ rule, severity }]⟩ c = [] := by
    rw [checkNodes, List.flatMap_eq_nil_iff]
    intro node _
    rw [nodeRules, List.filter_cons_of_neg (by simp [hkinds])]
    rfl
  have hdocument : checkDocument ⟨[{ rule, severity }]⟩ c = .ok (found.map fun v => { v with severity }) := by
    rw [checkDocument, documentRules, List.filter_cons_of_pos (by simp [hkinds])]
    simp only [List.filter_nil, List.mapM_cons, List.mapM_nil, h]
    exact congrArg Except.ok (List.append_nil _)
  have hpairwise : (found.map fun v => { v with severity }).Pairwise fun v w => v.span.start < w.span.start :=
    List.pairwise_map.2 horder
  have hle := hpairwise.imp fun hlt => Violation.le_iff.2 (.inl (.inl hlt))
  rw [analyze_of_pairwise hc hdocument (by rwa [hnodes]), hnodes, List.nil_append, eraseReps_of_pairwise_ne]
  refine hpairwise.imp fun {v w} hlt heq => ?_
  rw [heq] at hlt
  exact Nat.lt_irrefl _ hlt

/-- **The rule on the length of lines reports the long lines**: every line of the text with more characters than the
limit, in order and one violation each, at the text of the line and from its first column to its last, whatever tokens
and trivia the line is made of. -/
theorem analyze_longLines {s : String} (hs : s.utf8ByteSize ≤ maxBytes) (severity : Severity) (limit : Nat)
    (tree : SyntaxTree) (options : AnalyzerOptions) : ∃ d lines, Document.ofSource s = .ok d ∧
      (∀ ls, SplitsInto 0 s.toList ls ↔ ls = lines) ∧
      analyze ⟨[{ rule := .maxLineLength, severity }]⟩
          { document := d, tree, options := { options with maxLineLength := limit } } =
        .ok (((lines.zipIdx 1).filter fun (l, _) => limit < l.text.length).map fun (l, number) =>
          l.tooLong number severity) := by
  obtain ⟨d, hd⟩ := Document.exists_ofSource hs
  obtain ⟨-, rfl⟩ := Document.parsed_of_ofSource hd
  refine ⟨d, linesFrom 0 d.text.toList, hd,
    fun ls => ⟨SplitsInto.unique, fun h => h ▸ splitsInto_linesFrom 0 d.text.toList⟩, ?_⟩
  let c : RuleContext := { document := d, tree, options := { options with maxLineLength := limit } }
  have hfound : Rule.maxLineLength.checkDocument c =
      .ok ((d.longLines limit).map (c.violation "max-line-length" "Line is too long")) := rfl
  have hstarts : (linesFrom 0 d.text.toList).Pairwise fun l m => l.start < m.start := pairwise_linesFrom _ 0
  rw [d.longLines_eq, List.map_map] at hfound
  rw [analyze_of_document rfl rfl hfound (List.pairwise_map.2 (hstarts.filter _)),
    filter_eq_map_zipIdx _ 1, List.map_map, List.map_map]
  exact congrArg Except.ok (List.map_congr_left fun x hx => c.violation_line severity (List.mem_of_mem_filter hx))

/-- A line of four bytes and two characters, and a comment of three characters, with two characters allowed. -/
theorem analyze_longLines_comment : "éé\r\n//b\rc".utf8ByteSize ≤ maxBytes ∧
    ∃ d, Document.ofSource "éé\r\n//b\rc" = .ok d ∧
      analyze ⟨[{ rule := .maxLineLength, severity := .warning }]⟩
          { document := d, tree := ⟨[], []⟩, options := { maxLineLength := 2 } } =
        .ok [{ ruleId := "max-line-length", message := "Line is too long", span := ⟨6, 9⟩,
               location := some ⟨⟨2, 0⟩, ⟨2, 3⟩⟩, severity := .warning }] := by
  have hs : "éé\r\n//b\rc".utf8ByteSize ≤ maxBytes := by decide
  obtain ⟨d, lines, hd, hlines, hreport⟩ := analyze_longLines hs .warning 2 ⟨[], []⟩ {}
  obtain rfl := (hlines _).1 (splitsInto_linesFrom 0 _)
  refine ⟨hs, d, hd, hreport.trans (congrArg Except.ok ?_)⟩
  decide +kernel

end Registry

end LayoutLint
