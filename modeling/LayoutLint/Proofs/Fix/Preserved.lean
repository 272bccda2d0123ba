import LayoutLint.Proofs.Fix.Reread
import LayoutLint.Proofs.Fix.Rounds
import LayoutLint.Proofs.Layout.Ended
/-!
# Preserved — mending keeps the program

A round of mending keeps the words, the tree and all remarks outside of the gaps that rules bring in line (`Keeps`,
`Turn.keeps`). Only what reaches the end of the text and is closed by nothing may grow, a literal or a block comment,
and it grows by line breaks only. So does any number of rounds (`Keeps.trans`, `fix_keeps`).
-/
namespace LayoutLint

open Piece (Reads charsOf)

/-! ### Remarks -/

/-- A comment, a documentation comment or a directive. -/
def Trivia.isRemark (t : Trivia) : Bool := t.kind == .comment || t.kind == .structured

theorem Trivia.isRemark_of_kind {t : Trivia} (h : t.kind = .comment ∨ t.kind = .structured) : t.isRemark = true := by
  rcases h with hk | hk <;> (rw [Trivia.isRemark, hk]; rfl)

/-- The comments and directives in trivia. -/
def remarks (g : List Trivia) : List Trivia := g.filter Trivia.isRemark

theorem remarks_append (a b : List Trivia) : remarks (a ++ b) = remarks a ++ remarks b := List.filter_append _ _

theorem Trivia.isRemark_of_isBlank {t : Trivia} (h : t.isBlank = true) : t.isRemark = false := by
  rcases Bool.or_eq_true _ _ ▸ h with h | h <;> (rw [Trivia.isRemark, beq_iff_eq.1 h]; rfl)

theorem remarks_of_isBlank {g : List Trivia} (h : ∀ t ∈ g, t.isBlank = true) : remarks g = [] :=
  List.filter_eq_nil_iff.2 fun t ht => by rw [Trivia.isRemark_of_isBlank (h t ht)]; exact Bool.false_ne_true

/-- Joined breaks are no remarks. -/
theorem remarks_joinGap (g : List Trivia) : remarks (joinGap g) = remarks g := by
  have hglue : ∀ (t : Trivia) (g : List Trivia), remarks (glueGap t g) = remarks (t :: g) := by
    intro t g
    cases g with
    | nil => rfl
    | cons u g =>
      rw [glueGap]
      split
      · rename_i h
        rw [h.1, h.2]
        rfl
      · rfl
  induction g with
  | nil => rfl
  | cons t g ih =>
    rw [joinGap_cons, hglue, remarks, List.filter_cons, ← remarks, ih, remarks, remarks, List.filter_cons]

/-- White space that is taken away is no remark. -/
theorem remarks_dropAt {p : Nat → Bool} {g : List Trivia}
    (hp : ∀ i t, g[i]? = some t → p i = true → t.isWhitespace = true) : remarks (dropAt p g) = remarks g := by
  induction g generalizing p with
  | nil => rfl
  | cons t g ih =>
    have ih := ih fun i u hu => hp (i + 1) u hu
    rw [dropAt]
    split
    · rename_i h0
      have ht : t.isRemark = false := Trivia.isRemark_of_isBlank (by rw [Trivia.isBlank, hp 0 t rfl h0]; rfl)
      rw [ih, remarks, remarks, List.filter_cons, ht, if_neg Bool.false_ne_true]
    · rw [remarks, List.filter_cons, ← remarks, ih, remarks, remarks, List.filter_cons]

theorem remarks_concat (g : List Trivia) {t : Trivia} (h : t.isRemark = true) :
    remarks (g ++ [t]) = remarks g ++ [t] := by
  rw [remarks_append]
  exact congrArg _ (List.filter_cons_of_pos h)

theorem PicksRuns.isWhitespace {p : Nat → Bool} {g : List Trivia} {last : Bool} (hp : PicksRuns last p g) :
    ∀ i t, g[i]? = some t → p i = true → t.isWhitespace = true :=
  fun i t ht hpi => (Bool.and_eq_true_iff.1 (hp i t ht hpi)).1

/-! ### What nothing closes -/

namespace Document

variable {d e f : Document}

/-- The last word and what stands behind it. -/
theorem Parsed.reads_last (h : d.Parsed) {m : Nat} (hm : d.endOfFile = m + 1) :
    ∃ b, Reads b (d.piece m :: d.tail.map .trivia) := by
  have hparts := h.proper.parts_eq_weave
  rw [hm, weave_succ, Nat.zero_add, ← hm] at hparts
  exact (hparts ▸ h.reads).of_append _

/-- A literal that takes in a line break reaches to the end of the text. -/
theorem Parsed.tail_eq_nil_of_open (h : d.Parsed) {m : Nat} (hm : d.endOfFile = m + 1) (ho : (d.piece m).Open) :
    d.tail = [] := by
  obtain ⟨b, hne, ⟨-, hscan⟩, hrest⟩ := h.reads_last hm
  obtain ⟨hquoted, e, he, hgrows⟩ := ho
  by_contra htail
  have hrest : Reads false (d.tail.map .trivia) := hrest
  have hsoft : SoftHead (charsOf (d.tail.map .trivia)) := by
    have hread : Reads false (d.tail.map .trivia ++ []) := by rwa [List.append_nil]
    simpa only [List.append_nil] using softHead_gap hread softHead_nil
  have hchars : charsOf (d.tail.map .trivia) ≠ [] := fun hnil =>
    htail (List.map_eq_nil_iff.1 ((Piece.charsOf_eq_nil hrest).1 hnil))
  exact hgrows (scan_append (.of_lineEnd hsoft he) hchars (fun _ _ => he) hne hscan)

end Document

/-- Is some node of the tree about the gap in front of token `j`? -/
def SyntaxTree.coversGap (t : SyntaxTree) (j : Nat) : Bool := t.nodes.any fun n => n.gap?.any fun g => g.2.2 == j

namespace Document

variable {d e f : Document} {t : SyntaxTree}

/-- Characters of line breaks. -/
def Breaks (x : List Char) : Prop := ∀ a ∈ x, isBreakChar a = true

/-- The document has the words and, in gaps that the tree has no node about, the remarks of another one. A literal or a
block comment at the end of the text that nothing closes may have grown by line breaks. -/
structure Keeps (t : SyntaxTree) (d e : Document) : Prop where
  endOfFile : e.endOfFile = d.endOfFile
  piece : ∀ i < d.endOfFile, e.piece i = d.piece i ∨ (i + 1 = d.endOfFile ∧ d.tail = [] ∧ (d.piece i).Open ∧
    ∃ x, Breaks x ∧ e.piece i = (d.piece i).extend x)
  gap : ∀ j < d.endOfFile, t.coversGap j = false → remarks (e.gap j) = remarks (d.gap j)
  tail : remarks e.tail = remarks d.tail ∨ ∃ g u x, d.tail.getLast? = some u ∧ remarks d.tail = g ++ [u] ∧
    Unclosed u.text.toList ∧ Breaks x ∧ remarks e.tail = g ++ [⟨u.kind, u.text ++ String.ofList x⟩]

theorem Keeps.refl (t : SyntaxTree) (d : Document) : d.Keeps t d :=
  ⟨rfl, fun _ _ => .inl rfl, fun _ _ _ => rfl, .inl rfl⟩

theorem Breaks.append {x y : List Char} (hx : Breaks x) (hy : Breaks y) : Breaks (x ++ y) := fun a ha =>
  (List.mem_append.1 ha).elim (hx a) (hy a)

end Document

theorem Piece.extend_extend (p : Piece) (x y : List Char) : (p.extend x).extend y = p.extend (x ++ y) := by
  cases p <;> simp [Piece.extend, String.append_assoc, String.ofList_append]

namespace Document

variable {d e f : Document} {t : SyntaxTree}

/-- **What is kept twice is kept.** -/
theorem Keeps.trans (hd : d.Parsed) (h : d.Keeps t e) (h' : e.Keeps t f) : d.Keeps t f where
  endOfFile := h'.endOfFile.trans h.endOfFile
  piece i hi := by
    have hie : i < e.endOfFile := h.endOfFile ▸ hi
    rcases h.piece i hi with he | ⟨hlast, htail, hopen, x, hx, he⟩ <;>
      rcases h'.piece i hie with hf | ⟨hlast', htail', hopen', y, hy, hf⟩
    · exact .inl (hf.trans he)
    · rw [h.endOfFile] at hlast'
      rw [he] at hopen' hf
      exact .inr ⟨hlast', hd.tail_eq_nil_of_open hlast'.symm hopen', hopen', y, hy, hf⟩
    · exact .inr ⟨hlast, htail, hopen, x, hx, hf.trans he⟩
    · exact .inr ⟨hlast, htail, hopen, x ++ y, hx.append hy, by rw [hf, he, Piece.extend_extend]⟩
  gap j hj hfree := (h'.gap j (h.endOfFile ▸ hj) hfree).trans (h.gap j hj hfree)
  tail := by
    rcases h.tail with he | ⟨g, u, x, hu, hd', hopen, hx, he⟩ <;>
      rcases h'.tail with hf | ⟨g', u', y, hu', he', hopen', hy, hf⟩
    · exact .inl (hf.trans he)
    · have hmem : u' ∈ d.tail := by
        have : u' ∈ remarks d.tail := by rw [← he, he']; simp
        exact List.mem_of_mem_filter this
      exact .inr ⟨g', u', y, (hd.getLast?_of_unclosed hmem hopen').1, he ▸ he', hopen', hy, hf⟩
    · exact .inr ⟨g, u, x, hu, hd', hopen, hx, hf.trans he⟩
    · obtain ⟨rfl, heq⟩ := List.append_inj' (he.symm.trans he') rfl
      obtain rfl := List.singleton_inj.1 heq
      refine .inr ⟨g, u, x ++ y, hu, hd', hopen, hx.append hy, ?_⟩
      rw [hf, String.append_assoc, ← String.ofList_append]

end Document

namespace Registry

variable {R : Registry} {c : RuleContext} {S : List Edit} {q : Document}

theorem Wants.coversGap {t : SyntaxTree} {k : GapContract} {id : String} {j : Nat} (h : R.Wants t k id j) :
    t.coversGap (j + 1) = true := by
  obtain ⟨-, -, -, -, n, hn, -, hg⟩ := h
  exact List.any_eq_true.2 ⟨n, hn, by rw [hg]; exact beq_self_eq_true _⟩

/-- The cut of a plan takes no remark away. -/
theorem Plan.remarks_left {j keep : Nat} {added : List Trivia} (h : R.Plan c S j keep added) (hS : R.Batch c S)
    (hd : c.document.Parsed) (ht : SyntaxTree.ofDocument? c.document = some c.tree)
    (hfree : c.tree.coversGap j = false) :
    remarks (c.document.left S j keep added) = remarks (c.document.gap j) := by
  have hpicks := hS.picksRuns hd ht j
  cases h with
  | contract hw => rw [hw.coversGap] at hfree; cases hfree
  | free => rw [Document.left, List.take_length, List.append_nil, remarks_dropAt hpicks.isWhitespace]
  | @final b keep added _ _ hcut _ =>
    have hadded : remarks added = [] := by
      rcases hcut.added_eq with rfl | rfl <;> rfl
    have hkept : remarks (dropAt (c.document.takesRun S c.document.endOfFile) (c.document.tail.take keep)) =
        remarks (c.document.tail.take keep) := by
      refine remarks_dropAt fun i t ht => hpicks.isWhitespace i t ?_
      rw [List.getElem?_take] at ht
      split at ht
      · exact ht
      · cases ht
    have hsplit : remarks (c.document.tail.take keep) ++ remarks (c.document.tail.drop keep) =
        remarks c.document.tail := by
      rw [← remarks_append, List.take_append_drop]
    rw [remarks_of_isBlank hcut.blank, List.append_nil] at hsplit
    rw [Document.left, remarks_append, hadded, List.append_nil]
    exact hkept.trans hsplit

/-- **A round of mending keeps the program.** -/
theorem Turn.keeps (h : R.Turn c S q) (hS : R.Batch c S) (hd : c.document.Parsed)
    (ht : SyntaxTree.ofDocument? c.document = some c.tree) (hfree : c.tree.coversGap c.document.endOfFile = false) :
    c.document.Keeps c.tree q where
  endOfFile := h.endOfFile
  piece i hi := by
    cases h.last with
    | plain _ hpieces => exact .inl (hpieces i hi)
    | comment _ _ _ _ _ hpieces => exact .inl (hpieces i hi)
    | @literal m x _ hm htail _ hopen htaken hpieces hpiece =>
      rcases Nat.lt_or_eq_of_le (Nat.le_of_lt_succ (hm ▸ hi)) with him | rfl
      · exact .inl (hpieces i him)
      · exact .inr ⟨hm.symm, htail, hopen, x, htaken.isBreakChar hd.isBreak_lineBreak, hpiece⟩
  gap j hj hfree := by
    obtain ⟨keep, added, hplan, hgap⟩ := h.gap j hj
    rw [hgap, remarks_joinGap, hplan.remarks_left hS hd ht hfree]
  tail := by
    cases h.last with
    | plain hplan _ htail => exact .inl (by rw [htail, remarks_joinGap, hplan.remarks_left hS hd ht hfree]; rfl)
    | literal _ htail _ _ htaken _ _ hq =>
      refine .inl ?_
      rw [hq, htail]
      rcases htaken.rest_eq with rfl | rfl <;> rfl
    | @comment g u x rest hlast hplan hjoin hopen htaken _ hq =>
      have hmem : u ∈ c.document.tail := List.mem_of_getLast? hlast
      have hremark := Trivia.isRemark_of_kind (hd.getLast?_of_unclosed hmem hopen).2
      have hpicks := hS.picksRuns hd ht c.document.endOfFile
      have hbefore : remarks c.document.tail = remarks g ++ [u] := by
        rw [← remarks_concat g hremark, ← hjoin, remarks_joinGap]
        exact (remarks_dropAt hpicks.isWhitespace).symm
      refine .inr ⟨remarks g, u, x, hlast, hbefore, hopen, htaken.isBreakChar hd.isBreak_lineBreak, ?_⟩
      have hnone : remarks rest = [] := by rcases htaken.rest_eq with rfl | rfl <;> rfl
      have hgrown : Trivia.isRemark ⟨u.kind, u.text ++ String.ofList x⟩ = true := hremark
      rw [hq, List.append_cons, remarks_append, hnone, List.append_nil, remarks_concat g hgrown]

end Registry

/-! ### The tree -/

namespace Document

variable {d e : Document} {t : SyntaxTree}

/-- No node is about the gap at the end. -/
theorem Parsed.coversGap_endOfFile (h : d.Parsed) (ht : SyntaxTree.ofDocument? d = some t) :
    t.coversGap d.endOfFile = false := by
  obtain ⟨opens, hgaps⟩ := h.gaps_of_tree ht
  refine List.any_eq_false.2 fun n hn hany => ?_
  obtain ⟨⟨k, left, right⟩, hg, hright⟩ := (Option.any_eq_true _ _).1 hany
  have hlt : right < d.endOfFile := (hgaps n hn k left right hg).1.inside
  exact absurd (beq_iff_eq.1 hright) (Nat.ne_of_lt hlt)

/-- **A document that is kept says the same.** -/
theorem Keeps.sameWords (h : d.Keeps t e) (hd : d.Parsed) (he : e.Parsed) : SameWords d e := by
  have hend : ∀ i, d.endOfFile ≤ i → e.kindAt i = d.kindAt i ∧ e.wordAt i = d.wordAt i := by
    intro i hi
    rcases Nat.lt_or_eq_of_le hi with hlt | rfl
    · obtain ⟨hw, hk⟩ := wordAt_of_endOfFile_lt hlt
      obtain ⟨hw', hk'⟩ := wordAt_of_endOfFile_lt (h.endOfFile.symm ▸ hlt : e.endOfFile < i)
      exact ⟨hk'.trans hk.symm, hw'.trans hw.symm⟩
    · obtain ⟨hw, hk⟩ := hd.proper.wordAt_endOfFile
      obtain ⟨hw', hk'⟩ := he.proper.wordAt_endOfFile
      rw [h.endOfFile] at hw' hk'
      exact ⟨hk'.trans hk.symm, hw'.trans hw.symm⟩
  have hkind : ∀ i, e.kindAt i = d.kindAt i := by
    intro i
    rcases Nat.lt_or_ge i d.endOfFile with hi | hi
    · rcases h.piece i hi with hp | ⟨-, -, -, x, -, hp⟩ <;> exact (Piece.word.inj hp).1
    · exact (hend i hi).1
  have hlast : ∀ i, e.wordAt i = d.wordAt i ∨ (i + 1 = d.endOfFile ∧ (d.kindAt i).isQuoted = true) := by
    intro i
    rcases Nat.lt_or_ge i d.endOfFile with hi | hi
    · rcases h.piece i hi with hp | ⟨hm, -, hopen, -⟩
      · exact .inl (Piece.word.inj hp).2
      · exact .inr ⟨hm, hopen.1⟩
    · exact .inl (hend i hi).2
  refine ⟨by rw [d.size_eq, e.size_eq, h.endOfFile], hd.proper.wordAt_endOfFile.1, hkind, fun i hi => ?_, fun i => ?_⟩
  · refine (hlast i).resolve_right fun hm => hi ?_
    rw [d.size_eq, ← hm.1]
  · refine (hlast i).imp_right fun hm => ⟨?_, hd.spelled.quoted i hm.2, fun hident => ?_⟩
    · exact he.spelled.quoted i (hkind i ▸ hm.2)
    · rw [hident] at hm
      cases hm.2

end Document

namespace Registry

variable {R : Registry} {options : AnalyzerOptions} {cancelled : Bool} {s t t' : String} {p : Program}

/-- The edits that a round selects are made together. -/
theorem batch_of_read (hR : R.Builtin) (hp : Program.parse t = .ok p) {r : Reading}
    (hr : R.read options cancelled t = .ok r) :
    r.document = p.document ∧
    R.analyze { document := p.document, tree := p.tree, options, cancelled } = .ok r.violations ∧
      (R.fixSystem options cancelled).edits r = r.violations.filterMap (R.editFor? p.document) ∧
      R.Batch { document := p.document, tree := p.tree, options, cancelled }
        (selectClear (r.violations.filterMap (R.editFor? p.document))).1 := by
  obtain ⟨p', hp', hdoc, ha⟩ := read_eq_ok_iff.1 hr
  obtain rfl := Except.ok.inj (hp.symm.trans hp')
  obtain ⟨-, hsource, htree⟩ := Program.parse_eq_ok_iff.1 hp
  let c : RuleContext := { document := p.document, tree := p.tree, options, cancelled }
  refine ⟨hdoc, ha, by rw [FixSystem.edits, hdoc]; rfl, fun e he => ?_, allClear_selectClear _⟩
  exact mends_of_mem_edits hR (c := c) (Document.parsed_of_ofSource hsource).1 htree ha
    ((mem_selectClear _ e).2 (.inl he))

/-- **A round, read again**: the program has the tree that it had. -/
theorem turn_of_next? (hR : R.Builtin) (hp : Program.parse t = .ok p)
    (h : (R.fixSystem options cancelled).next? t = some t') :
    ∃ vs q, R.analyze { document := p.document, tree := p.tree, options, cancelled } = .ok vs ∧
      vs.filterMap (R.editFor? p.document) ≠ [] ∧ Program.parse t' = .ok ⟨q, p.tree⟩ ∧
      R.Turn { document := p.document, tree := p.tree, options, cancelled }
        (selectClear (vs.filterMap (R.editFor? p.document))).1 q ∧ p.document.Keeps p.tree q := by
  obtain ⟨r, o, hr, hne, ho, rfl⟩ := FixSystem.next?_eq_some_iff.1 h
  obtain ⟨hdoc, ha, hedits, hS⟩ := batch_of_read hR hp hr
  rw [hedits] at hne ho
  rw [hdoc] at ho
  obtain ⟨-, hsource, htree⟩ := Program.parse_eq_ok_iff.1 hp
  obtain ⟨hd, -⟩ := Document.parsed_of_ofSource hsource
  have hsize : o.document.text.utf8ByteSize ≤ maxBytes := o.document.length_le
  obtain ⟨q, hq⟩ := Document.exists_ofSource hsize
  have hturn := hS.turn hd htree (selectClear_ne_nil hne) ho hq
  have hkeeps := hturn.keeps hS hd htree (hd.coversGap_endOfFile htree)
  refine ⟨r.violations, q, ha, hne, Program.parse_eq_ok_iff.2 ⟨hsize, hq, ?_⟩, hturn, hkeeps⟩
  rw [(hkeeps.sameWords hd hturn.parsed).tree, htree]

/-- **Any number of rounds keeps the program.** -/
theorem keeps_after (hR : R.Builtin) (hp : Program.parse s = .ok p) {k : Nat}
    (h : (R.fixSystem options cancelled).after s k = some t) :
    ∃ q, Program.parse t = .ok ⟨q, p.tree⟩ ∧ p.document.Keeps p.tree q := by
  induction k generalizing t with
  | zero => exact ⟨p.document, Option.some.inj h ▸ hp, .refl _ _⟩
  | succ k ih =>
    obtain ⟨u, hu, hnext⟩ := Option.bind_eq_some_iff.1 h
    obtain ⟨q, hq, hkeeps⟩ := ih hu
    obtain ⟨-, q', -, -, hq', -, hkeeps'⟩ := turn_of_next? hR hq hnext
    obtain ⟨hd, -⟩ := Document.parsed_of_ofSource (Program.parse_eq_ok_iff.1 hp).2.1
    exact ⟨q', hq', hkeeps.trans hd hkeeps'⟩

/-- A text that is mended is read first. -/
theorem exists_parse_of_fix {limit : Nat} {report : FixReport}
    (h : (R.fixSystem options cancelled).fix limit s = .ok report) : ∃ p, Program.parse s = .ok p := by
  obtain ⟨r, hr, -⟩ := bind_eq_ok_iff.1 h
  obtain ⟨p, hp, -⟩ := read_eq_ok_iff.1 hr
  exact ⟨p, hp⟩

/-- **Mending keeps the program**: its words, its tree, and the comments and directives outside of the gaps that nodes
are about. -/
theorem fix_keeps (hR : R.Builtin) {limit : Nat} {report : FixReport}
    (h : (R.fixSystem options cancelled).fix limit s = .ok report) :
    ∃ p q, Program.parse s = .ok p ∧ Program.parse report.document.text = .ok q ∧ q.document = report.document ∧
      q.tree = p.tree ∧ p.document.Keeps p.tree q.document := by
  have hrounds := (R.fixSystem options cancelled).accounts_fix limit s
  rw [h] at hrounds
  obtain ⟨k, -, t, r, ht, hr, hdoc, -⟩ := hrounds
  obtain ⟨q, hq, hqdoc, -⟩ := read_eq_ok_iff.1 hr
  obtain ⟨-, htext⟩ := Document.parsed_of_ofSource (Program.parse_eq_ok_iff.1 hq).2.1
  obtain ⟨p, hp⟩ := exists_parse_of_fix h
  obtain ⟨q', hq', hkeeps⟩ := keeps_after hR hp ht
  obtain rfl := Except.ok.inj (hq.symm.trans hq')
  exact ⟨p, _, hp, by rw [hdoc, hqdoc, htext, hq], (hdoc.trans hqdoc).symm, rfl, hkeeps⟩

/-- A space in front of arguments is taken away; the comment behind them stays. -/
theorem fix_keeps_call : ∃ report,
    (builtin.fixSystem {} false).fix defaultRounds "f (x); // y\n" = .ok report ∧
      report.document.text = "f(x); // y\n" ∧
      ∃ p q, Program.parse "f (x); // y\n" = .ok p ∧ Program.parse report.document.text = .ok q ∧
        q.document = report.document ∧ q.tree = p.tree ∧ p.document.Keeps p.tree q.document := by
  obtain ⟨report, h, htext⟩ := exists_ok_of_any (e := (builtin.fixSystem {} false).fix defaultRounds "f (x); // y\n")
    (p := fun report => report.document.text == "f(x); // y\n") (by decide +kernel)
  exact ⟨report, h, beq_iff_eq.1 htext, fix_keeps builtin_builtin h⟩

end Registry

end LayoutLint
