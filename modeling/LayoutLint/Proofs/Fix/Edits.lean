import LayoutLint.Proofs.Layout.Blanks
import LayoutLint.Proofs.Layout.EndCut
import LayoutLint.Proofs.Layout.Programs
import LayoutLint.Proofs.Rules.Reports
/-!
# Edits — the edits for the violations of a text

Each edit for a violation brings a gap in line with a contract, or takes away white space at the end of a line, or mends
the end of the text; and whatever is broken in one of these ways has its edit (`mem_edits`).
-/
namespace LayoutLint

/-- The rules about gaps, each with what it wants a gap to hold. -/
def gapRules : List (Rule × GapContract) := [
  (.spaceBeforeParameterList, .singleSpace), (.noSpaceBeforeArgumentList, .noWhitespace),
  (.noSpaceAfterKeyword, .noWhitespace), (.noSpaceInCast, .noWhitespace), (.noSpaceInAttribute, .noWhitespace)]

variable {c : RuleContext} {n : SyntaxNode}

/-- What a rule about gaps says of the gap of a node. -/
structure Rule.GapReport (r : Rule) (c : RuleContext) (k : GapContract) (n : SyntaxNode) (j : Nat) : Prop where
  found : ∀ w ∈ r.checkNode c n, w.ruleId = r.id ∧ c.document.tokenFrom w.span.start = j + 1 ∧
    c.document.gap (j + 1) ≠ k.trailing
  complete : c.document.gap (j + 1) ≠ k.trailing → ∃ w, w ∈ r.checkNode c n

theorem Rule.gapReport_ofGap (hd : c.document.Parsed) {id description message : String} {kinds : List NodeKind}
    {k : GapContract} {gapOf : SyntaxNode → Option (Nat × Nat)} {j : Nat} (hg : gapOf n = some (j, j + 1))
    (hj : j < c.document.endOfFile) :
    (Rule.ofGap id description message kinds k gapOf).GapReport c k n j := by
  have hcheck : (Rule.ofGap id description message kinds k gapOf).checkNode c n =
      ((k.check? c.document j (j + 1)).map (c.violation id message)).toList := by
    simp only [Rule.ofGap, hg]
  constructor
  · intro w hw
    rw [hcheck, Option.mem_toList] at hw
    obtain ⟨s, hs, rfl⟩ := Option.map_eq_some_iff.1 hw
    refine ⟨rfl, hd.tokenFrom_check? hj hs, fun h => ?_⟩
    rw [(hd.check?_eq_none_iff k hj).2 h] at hs
    cases hs
  · intro hne
    cases hs : k.check? c.document j (j + 1) with
    | none => exact absurd ((hd.check?_eq_none_iff k hj).1 hs) hne
    | some s => exact ⟨_, by rw [hcheck, hs]; exact List.mem_singleton.2 rfl⟩

theorem Rule.gapReport_afterKeyword (hd : c.document.Parsed) {j : Nat} (hj : j < c.document.endOfFile) :
    Rule.noSpaceAfterKeyword.GapReport c .noWhitespace (.keywordExpression j (j + 1)) j := by
  have hp := hd.proper.present
  have hgap : c.document.gap (j + 1) = [] ↔ (c.document.token j).trailing = [] := by
    rw [Document.gap, List.append_eq_nil_iff]
    refine ⟨And.left, fun h => ⟨h, hd.leading_eq_nil hj ?_⟩⟩
    rw [h]
    exact fun t ht => absurd ht List.not_mem_nil
  constructor
  · intro w hw
    simp only [Rule.noSpaceAfterKeyword, hp, Bool.or_false, List.isEmpty_iff] at hw
    split at hw
    · cases hw
    · rename_i hne
      obtain rfl := List.mem_singleton.1 hw
      exact ⟨rfl, hd.proper.tokenFrom_gapStart (j := j + 1) hj, fun h => hne (hgap.1 h)⟩
  · intro hne
    have hne' : (c.document.token j).trailing ≠ [] := fun h => hne (hgap.2 h)
    simp only [Rule.noSpaceAfterKeyword, hp, Bool.or_false, List.isEmpty_iff, hne', if_false]
    exact ⟨_, List.mem_singleton.2 rfl⟩

/-- **What the rules about gaps report.** -/
theorem Rule.gapReport (hd : c.document.Parsed) {r : Rule} {k : GapContract} (hr : (r, k) ∈ gapRules)
    (hkind : r.nodeKinds.contains n.kind = true) {k' : GapContract} {j : Nat} (hg : n.gap? = some (k', j, j + 1))
    (hj : j < c.document.endOfFile) : k' = k ∧ r.GapReport c k n j := by
  simp only [gapRules, List.mem_cons, Prod.mk.injEq, List.not_mem_nil, or_false] at hr
  rcases hr with ⟨rfl, rfl⟩ | ⟨rfl, rfl⟩ | ⟨rfl, rfl⟩ | ⟨rfl, rfl⟩ | ⟨rfl, rfl⟩ <;>
    cases n <;> first
      | exact absurd (show false = true from hkind) Bool.false_ne_true
      | (simp only [SyntaxNode.gap?, Option.some.injEq, Prod.mk.injEq] at hg
         obtain ⟨rfl, rfl, rfl⟩ := hg
         first
           | exact ⟨rfl, Rule.gapReport_ofGap hd rfl hj⟩
           | exact ⟨rfl, Rule.gapReport_afterKeyword hd hj⟩)

theorem Rule.fix_of_mem_gapRules {r : Rule} {k : GapContract} (hr : (r, k) ∈ gapRules) :
    r ∈ builtinRules ∧ r.fixable = true ∧ r.nodeKinds ≠ [] ∧ ∀ d s, r.fix d s = k.edit? d r.id s := by
  simp only [gapRules, List.mem_cons, Prod.mk.injEq, List.not_mem_nil, or_false] at hr
  rcases hr with ⟨rfl, rfl⟩ | ⟨rfl, rfl⟩ | ⟨rfl, rfl⟩ | ⟨rfl, rfl⟩ | ⟨rfl, rfl⟩ <;>
    exact ⟨by simp [builtinRules], rfl, by decide, fun _ _ => rfl⟩

/-- Each kind of node that a rule about gaps looks at has a gap. -/
theorem Rule.exists_gap? {r : Rule} {k : GapContract} (hr : (r, k) ∈ gapRules)
    (hkind : r.nodeKinds.contains n.kind = true) : ∃ left right, n.gap? = some (k, left, right) := by
  simp only [gapRules, List.mem_cons, Prod.mk.injEq, List.not_mem_nil, or_false] at hr
  rcases hr with ⟨rfl, rfl⟩ | ⟨rfl, rfl⟩ | ⟨rfl, rfl⟩ | ⟨rfl, rfl⟩ | ⟨rfl, rfl⟩ <;>
    cases n <;> first
      | exact absurd (show false = true from hkind) Bool.false_ne_true
      | exact ⟨_, _, rfl⟩

/-! ### The edits for what is broken -/

namespace Document

variable {d : Document}

/-- White space at the end of a line: piece `i` of the gap in front of token `j`. -/
structure IsRun (d : Document) (j i : Nat) (t : Trivia) : Prop where
  gap : j < d.size
  piece : (d.gap j)[i]? = some t
  ends : isRun (j == d.endOfFile) t ((d.gap j).drop (i + 1)) = true

/-- The edit that takes a piece of white space away. -/
def runEdit (d : Document) (j i : Nat) (t : Trivia) : Edit where
  ruleId := Rule.noTrailingWhitespace.id
  span := (d.placeAt j i t).span
  splices :=
    [⟨(d.placeAt j i t).token, (d.placeAt j i t).slot, (d.placeAt j i t).index, (d.placeAt j i t).index + 1, []⟩]

theorem IsRun.isWhitespace {j i : Nat} {t : Trivia} (h : d.IsRun j i t) : t.isWhitespace = true :=
  (Bool.and_eq_true_iff.1 h.ends).1

theorem fix_run (d : Document) {j i : Nat} {t : Trivia} (hj : j < d.size) (ht : (d.gap j)[i]? = some t)
    (hpos : 0 < t.width) (hw : t.isWhitespace = true) :
    Rule.noTrailingWhitespace.fix d (d.placeAt j i t).span = some (d.runEdit j i t) := by
  show d.trailingBlankEdit? _ _ = _
  rw [trailingBlankEdit?, removeTriviaIn, d.triviaIn_piece hj ht hpos hw]
  rfl

theorem Parsed.fix_run (h : d.Parsed) {j i : Nat} {t : Trivia} (hr : d.IsRun j i t) :
    Rule.noTrailingWhitespace.fix d (d.placeAt j i t).span = some (d.runEdit j i t) :=
  d.fix_run hr.gap hr.piece (h.width_pos (List.mem_of_getElem? hr.piece)) hr.isWhitespace

end Document

namespace Registry

/-- The registry has the rule. -/
def Has (R : Registry) (r : Rule) : Prop := ∃ a ∈ R.rules, a.rule = r

/-- A rule of the registry, told by its id, wants the gap between tokens `j` and `j + 1` to keep a contract. -/
def Wants (R : Registry) (t : SyntaxTree) (k : GapContract) (id : String) (j : Nat) : Prop :=
  ∃ r, (r, k) ∈ gapRules ∧ R.Has r ∧ r.id = id ∧
    ∃ n ∈ t.nodes, r.nodeKinds.contains n.kind = true ∧ n.gap? = some (k, j, j + 1)

end Registry

/-- A rule of this library that can mend what it reports. -/
theorem Rule.cases_of_fixable {r : Rule} (h : r ∈ builtinRules) (hf : r.fixable = true) :
    (∃ k, (r, k) ∈ gapRules) ∨ r = .noTrailingWhitespace ∨ r = .finalNewline := by
  simp only [builtinRules, List.mem_cons, List.not_mem_nil, or_false] at h
  rcases h with rfl | rfl | rfl | rfl | rfl | rfl | rfl | rfl | rfl | rfl | rfl | rfl
  · exact .inl ⟨.singleSpace, by simp [gapRules]⟩
  · exact .inl ⟨.noWhitespace, by simp [gapRules]⟩
  · exact .inl ⟨.noWhitespace, by simp [gapRules]⟩
  · exact .inr (.inl rfl)
  · exact .inr (.inr rfl)
  · cases hf
  · exact .inl ⟨.noWhitespace, by simp [gapRules]⟩
  · exact .inl ⟨.noWhitespace, by simp [gapRules]⟩
  · cases hf
  · cases hf
  · cases hf
  · cases hf

namespace Registry

variable {R : Registry}

/-- What an edit for a violation of a document mends. -/
inductive Mends (R : Registry) (c : RuleContext) : Edit → Prop
  | gap {k : GapContract} {id : String} {j : Nat} : R.Wants c.tree k id j → c.document.gap (j + 1) ≠ k.trailing →
    Mends R c (c.document.gapEdit k id j)
  | run {j i : Nat} {t : Trivia} : R.Has .noTrailingWhitespace → c.document.IsRun j i t →
    Mends R c (c.document.runEdit j i t)
  | final {b : FinalBreak} {keep : Nat} {added : List Trivia} : R.Has .finalNewline →
    c.document.finalBreak? = some b → c.document.EndCut b keep added →
    Mends R c (c.document.endEdit Rule.finalNewline.id b.span keep added)

/-- A contract that a tree wants kept is that of a gap in front of a token. -/
theorem Wants.lt (hd : c.document.Parsed) (ht : SyntaxTree.ofDocument? c.document = some c.tree) {k : GapContract}
    {id : String} {j : Nat} (h : R.Wants c.tree k id j) : j + 1 < c.document.endOfFile := by
  obtain ⟨r, -, -, -, n, hn, -, hg⟩ := h
  obtain ⟨opens, hopens⟩ := hd.gaps_of_tree ht
  exact (hopens n hn _ _ _ hg).1.inside

theorem trailing_of_checkDocument {r : Rule} (hr : r = .noTrailingWhitespace) {ws : List Violation}
    (hws : r.checkDocument c = .ok ws) :
    ∃ message, ws = c.document.trailingBlanks.map (c.violation r.id message) := by
  subst hr
  obtain ⟨spans, hspans, hws⟩ := bind_eq_ok_iff.1 hws
  obtain rfl := Except.ok.inj hws
  obtain rfl := RuleContext.eq_trailingBlanks hspans
  exact ⟨_, rfl⟩

theorem final_of_checkDocument {r : Rule} (hr : r = .finalNewline) {ws : List Violation}
    (hws : r.checkDocument c = .ok ws) :
    ∃ message, ws = (c.document.finalBreak?.map FinalBreak.span).toList.map (c.violation r.id message) := by
  subst hr
  obtain rfl := Except.ok.inj hws
  refine ⟨"The file must end with a single newline.", ?_⟩
  cases c.document.finalBreak? <;> rfl

/-- The gap that a node of a tree is about is that in front of a token. -/
theorem next_of_gap? (hd : c.document.Parsed) (ht : SyntaxTree.ofDocument? c.document = some c.tree)
    (hn : n ∈ c.tree.nodes) {k : GapContract} {left right : Nat} (hg : n.gap? = some (k, left, right)) :
    right = left + 1 ∧ left < c.document.endOfFile := by
  obtain ⟨opens, hopens⟩ := hd.gaps_of_tree ht
  have hm := (hopens n hn k left right hg).1
  have hnext := hm.next
  have hin : right < c.document.endOfFile := hm.inside
  omega

/-- The edit for a violation is what the rule that reported it makes of it. -/
theorem editFor?_eq_some_iff (hR : R.Builtin) {a : ActiveRule} (ha : a ∈ R.rules) (hf : a.rule.fixable = true)
    {d : Document} {w : Violation} {e : Edit} (hw : w.ruleId = a.rule.id) :
    R.editFor? d { w with severity := a.severity } = some e ↔ a.rule.fix d w.span = some e ∧ e.splices ≠ [] := by
  rw [editFor?_eq hR ha d (v := { w with severity := a.severity }) hw, if_pos hf, Option.filter_eq_some_iff]
  simp [Edit.isEmpty]

/-- What a violation of a document is about, and the edit for it: nothing that can be mended, a gap that breaks a
contract, white space at the end of a line, or the end of the text. -/
inductive Finds (R : Registry) (c : RuleContext) (v : Violation) : Option Edit → Prop
  | never : (∀ d, R.editFor? d v = none) → Finds R c v none
  | gap {k : GapContract} {id : String} {j : Nat} : R.Wants c.tree k id j → c.document.gap (j + 1) ≠ k.trailing →
    c.document.tokenFrom v.span.start = j + 1 →
    (∀ d, R.editFor? d v = (k.edit? d id v.span).filter (!·.isEmpty)) →
    Finds R c v (some (c.document.gapEdit k id j))
  | run {j i : Nat} {t : Trivia} : R.Has .noTrailingWhitespace → c.document.IsRun j i t →
    v.span = (c.document.placeAt j i t).span →
    (∀ d, R.editFor? d v = (Rule.noTrailingWhitespace.fix d v.span).filter (!·.isEmpty)) →
    Finds R c v (some (c.document.runEdit j i t))
  | final {b : FinalBreak} {keep : Nat} {added : List Trivia} : R.Has .finalNewline →
    c.document.finalBreak? = some b → c.document.EndCut b keep added →
    Finds R c v (some (c.document.endEdit Rule.finalNewline.id b.span keep added))

/-- **What the violations of a document are about.** -/
theorem finds_of_mem (hR : R.Builtin) (hd : c.document.Parsed) (ht : SyntaxTree.ofDocument? c.document = some c.tree)
    {vs : List Violation} (hvs : R.analyze c = .ok vs) {v : Violation} (hv : v ∈ vs) :
    R.Finds c v (R.editFor? c.document v) := by
  obtain ⟨a, ha, w, hw, rfl⟩ := (mem_analyze hvs).1 hv
  have hid := hw.ruleId (hR a ha)
  have heditFor := fun d => editFor?_eq hR ha d (v := { w with severity := a.severity }) hid
  cases hf : a.rule.fixable with
  | false =>
    have hnever : ∀ d, R.editFor? d { w with severity := a.severity } = none := fun d => by
      rw [heditFor, hf, if_neg Bool.false_ne_true]
    rw [hnever]
    exact .never hnever
  | true =>
    have hfix : ∀ d, R.editFor? d { w with severity := a.severity } =
        (a.rule.fix d w.span).filter (!·.isEmpty) := fun d => by rw [heditFor, hf, if_pos rfl]
    -- The edit is what the fix gives, as it has something to do.
    have hedit : ∀ {e}, a.rule.fix c.document w.span = some e → e.splices ≠ [] →
        R.editFor? c.document { w with severity := a.severity } = some e := fun he hne =>
      (editFor?_eq_some_iff hR ha hf hid).2 ⟨he, hne⟩
    rcases Rule.cases_of_fixable (hR a ha) hf with ⟨k, hk⟩ | hr | hr
    · obtain ⟨-, -, hkinds, hfixes⟩ := Rule.fix_of_mem_gapRules hk
      obtain ⟨n, hn, hkind, hwn⟩ | ⟨hnil, -⟩ := hw
      · obtain ⟨left, right, hg⟩ := Rule.exists_gap? hk hkind
        obtain ⟨rfl, hlt⟩ := next_of_gap? hd ht hn hg
        obtain ⟨-, hreport⟩ := Rule.gapReport hd hk hkind hg hlt
        obtain ⟨-, hfrom, hbroken⟩ := hreport.found w hwn
        rw [hedit ((hfixes _ _).trans (hd.proper.edit?_eq k _ hfrom)) (Document.gapEdit_splices_ne_nil hbroken)]
        exact .gap ⟨a.rule, hk, ⟨a, ha, rfl⟩, rfl, n, hn, hkind, hg⟩ hbroken hfrom fun d => by rw [hfix, hfixes]
      · exact absurd hnil hkinds
    · obtain ⟨n, -, hkind, -⟩ | ⟨-, ws, hws, hwn⟩ := hw
      · rw [hr] at hkind
        cases hkind
      · obtain ⟨message, rfl⟩ := trailing_of_checkDocument hr hws
        obtain ⟨s, hs, rfl⟩ := List.mem_map.1 hwn
        obtain ⟨j, hj, i, t, ht, hrun, rfl⟩ := hd.mem_trailingBlanks.1 hs
        have hrun : c.document.IsRun j i t := ⟨hj, ht, hrun⟩
        rw [hedit (hr ▸ hd.fix_run hrun) (List.cons_ne_nil _ _)]
        exact .run ⟨a, ha, hr⟩ hrun rfl fun d => by rw [hfix, hr]
    · obtain ⟨n, -, hkind, -⟩ | ⟨-, ws, hws, hwn⟩ := hw
      · rw [hr] at hkind
        cases hkind
      · obtain ⟨message, rfl⟩ := final_of_checkDocument hr hws
        obtain ⟨s, hs, rfl⟩ := List.mem_map.1 hwn
        rw [Option.mem_toList] at hs
        obtain ⟨b, hb, rfl⟩ := Option.map_eq_some_iff.1 hs
        obtain ⟨keep, added, hcut⟩ := hd.exists_endCut hb
        have hfinal : a.rule.fix c.document b.span =
            some (c.document.endEdit Rule.finalNewline.id b.span keep added) := by
          rw [hr]
          exact hd.finalBreakEdit?_eq hcut _
        rw [hedit hfinal (Document.endSplices_ne_nil (hcut.keep_lt_or hd.proper))]
        exact .final ⟨a, ha, hr⟩ hb hcut

theorem Finds.mends {v : Violation} {e : Edit} (h : R.Finds c v (some e)) : R.Mends c e := by
  cases h with
  | gap hw hbroken => exact .gap hw hbroken
  | run hr hrun => exact .run hr hrun
  | final hr hb hcut => exact .final hr hb hcut

/-- Each edit for a violation mends something. -/
theorem mends_of_mem_edits (hR : R.Builtin) (hd : c.document.Parsed)
    (ht : SyntaxTree.ofDocument? c.document = some c.tree) {vs : List Violation} (hvs : R.analyze c = .ok vs) {e : Edit}
    (he : e ∈ vs.filterMap (R.editFor? c.document)) : R.Mends c e := by
  obtain ⟨v, hv, he⟩ := List.mem_filterMap.1 he
  exact Finds.mends (he ▸ finds_of_mem hR hd ht hvs hv)

/-- **The edits for the violations of a document**, and what they mend. -/
theorem mem_edits (hR : R.Builtin) (hd : c.document.Parsed) (ht : SyntaxTree.ofDocument? c.document = some c.tree)
    (hc : c.cancelled = false) {vs : List Violation} (hvs : R.analyze c = .ok vs) {e : Edit} :
    e ∈ vs.filterMap (R.editFor? c.document) ↔ R.Mends c e := by
  refine ⟨mends_of_mem_edits hR hd ht hvs, ?_⟩
  rw [List.mem_filterMap]
  rintro (⟨⟨r, hk, ⟨a, ha, rfl⟩, rfl, n, hn, hkind, hg⟩, hbroken⟩ | ⟨⟨a, ha, hr⟩, hrun⟩ | ⟨⟨a, ha, hr⟩, hb, hcut⟩)
  · obtain ⟨hmem, hf, -, hfixes⟩ := Rule.fix_of_mem_gapRules hk
    obtain ⟨-, hlt⟩ := next_of_gap? hd ht hn hg
    obtain ⟨-, hreport⟩ := Rule.gapReport hd hk hkind hg hlt
    obtain ⟨w, hw⟩ := hreport.complete hbroken
    obtain ⟨hid, hfrom, -⟩ := hreport.found w hw
    refine ⟨{ w with severity := a.severity },
      (mem_analyze hvs).2 ⟨a, ha, w, .inl ⟨n, hn, hkind, hw⟩, rfl⟩, (editFor?_eq_some_iff hR ha hf hid).2 ⟨?_, ?_⟩⟩
    · rw [hfixes, hd.proper.edit?_eq _ _ hfrom]
    · exact Document.gapEdit_splices_ne_nil hbroken
  · obtain ⟨ws, hws⟩ := Rule.exists_checkDocument (hR a ha) hc
    obtain ⟨message, rfl⟩ := trailing_of_checkDocument hr hws
    have hs := hd.mem_trailingBlanks.2 ⟨_, hrun.gap, _, _, hrun.piece, hrun.ends, rfl⟩
    refine ⟨{ c.violation a.rule.id message _ with severity := a.severity }, (mem_analyze hvs).2
      ⟨a, ha, _, .inr ⟨by rw [hr]; rfl, _, hws, List.mem_map_of_mem hs⟩, rfl⟩,
      (editFor?_eq_some_iff hR ha (by rw [hr]; rfl) rfl).2 ⟨?_, List.cons_ne_nil _ _⟩⟩
    rw [hr]
    exact hd.fix_run hrun
  · rename_i b _ _
    obtain ⟨ws, hws⟩ := Rule.exists_checkDocument (hR a ha) hc
    obtain ⟨message, rfl⟩ := final_of_checkDocument hr hws
    have hs : b.span ∈ (c.document.finalBreak?.map FinalBreak.span).toList := by
      rw [hb]
      exact List.mem_singleton.2 rfl
    refine ⟨{ c.violation a.rule.id message _ with severity := a.severity }, (mem_analyze hvs).2
      ⟨a, ha, _, .inr ⟨by rw [hr]; rfl, _, hws, List.mem_map_of_mem hs⟩, rfl⟩,
      (editFor?_eq_some_iff hR ha (by rw [hr]; rfl) rfl).2 ⟨?_, Document.endSplices_ne_nil (hcut.keep_lt_or hd.proper)⟩⟩
    rw [hr]
    exact hd.finalBreakEdit?_eq hcut _

end Registry

end LayoutLint
