import LayoutLint.Proofs.Rules.OutermostCalls
import LayoutLint.Proofs.Syntax.Nesting
import Mathlib.Order.Interval.Finset.Nat
/-!
# ClosingParens — two ways to the parenthesis that closes one

The end of a call of a member is the partner of its parenthesis in the table of brackets. The end of any other call is
found by counting parentheses. Behind a parenthesis that has a partner the count stands at the parentheses that are not
closed yet (`Document.unclosed`, `Document.closingParen_eq_go`), and in front of the partner these are the ones that the
table has dropped. So the count ends at the partner when none was dropped, and goes on behind it otherwise
(`Document.closingParen_of_ofSource`).
-/
namespace LayoutLint

namespace Brackets

variable {texts : List String} {o c k : Nat}

/-- Pairs do not cross. -/
theorem apart_of_partner? {i j l : Nat} (hij : (ofTexts texts).partner? i = some j) (hlt : i < j)
    (hkl : (ofTexts texts).partner? k = some l) (hlt' : k < l) (hik : i < k) : j < k ∨ l < j := by
  have h := (BracketScan.nested_before (Nat.le_refl texts.length)).apart
  rw [BracketScan.table_before] at h
  exact h i j k l hij hlt hkl hlt' hik

/-- **A closing bracket between two of its shape that belong together has its partner between them.** -/
theorem exists_partner_between (h : (ofTexts texts).partner? o = some c) (hok : o < k) (hkc : k < c)
    (hcloses : openerOf (texts.getD k "") = some (texts.getD o "")) :
    ∃ j, o < j ∧ j < k ∧ (ofTexts texts).partner? k = some j := by
  obtain ⟨hmatched, hpaired⟩ := matched_texts texts
  have hk : k < texts.length := Nat.lt_trans hkc (hpaired.lt _ _ h)
  obtain ⟨q, hq, rfl⟩ := BracketScan.exists_opened_of_partner (Nat.le_of_lt hk) hok (Nat.le_of_lt hkc) h
  have hword := ((BracketScan.sound_before (Nat.le_of_lt hk)).opened q hq).2
  obtain ⟨j, hj⟩ := BracketScan.exists_partner_of_opened hk hq (hword ▸ hcloses)
  have hback : (ofTexts texts).partner? j = some k := hpaired.symm _ _ hj
  have hjk : j < k := by
    rcases hmatched _ _ hj with ⟨-, hopens⟩ | ⟨hlt, -⟩
    · have := isOpener_of_openerOf hcloses
      rw [isOpener_of_closes hopens] at this
      cases this
    · exact hlt
  refine ⟨j, Nat.lt_of_not_le fun hle => ?_, hjk, hj⟩
  rcases Nat.eq_or_lt_of_le hle with rfl | hlt
  · have := Option.some.inj (hback.symm.trans h)
    omega
  · have := apart_of_partner? hback hjk h (by omega) hlt
    omega

end Brackets

namespace Document

open Outline (ofDocument matched)

variable {d : Document} {o c k : Nat}

/-- What belongs together with an opening parenthesis is a closing one behind it. -/
theorem closes_of_partner? {j : Nat} (hj : d.wordAt j = "(") (h : (ofDocument d).partner? j = some c) :
    j < c ∧ d.wordAt c = ")" := by
  rcases (matched d).1 j c h with ⟨hlt, hcloses⟩ | ⟨-, hcloses⟩
  · exact ⟨hlt, Outline.eq_of_openerOf (hj ▸ hcloses)⟩
  · rw [hj] at hcloses
    cases hcloses

/-! ### Parentheses that are not closed -/

/-- The parentheses behind token `o` that nothing in front of token `k` closes. -/
def unclosed (d : Document) (o k : Nat) : Finset Nat :=
  (Finset.Ioo o k).filter fun j => d.wordAt j = "(" ∧ ((ofDocument d).partner? j).all (fun c => k ≤ c) = true

theorem mem_unclosed {j : Nat} : j ∈ d.unclosed o k ↔
    (o < j ∧ j < k) ∧ d.wordAt j = "(" ∧ ∀ c, (ofDocument d).partner? j = some c → k ≤ c := by
  rw [unclosed, Finset.mem_filter, Finset.mem_Ioo, Option.all_eq_true]
  simp only [decide_eq_true_eq]

theorem unclosed_start (d : Document) (o : Nat) : d.unclosed o (o + 1) = ∅ :=
  Finset.eq_empty_of_forall_notMem fun j hj => by
    have := (mem_unclosed.1 hj).1
    omega

/-- Going on by a token: the parentheses in front of it whose partner it is not are as they were. -/
theorem mem_unclosed_succ {j : Nat} (hj : j ≠ k) :
    j ∈ d.unclosed o (k + 1) ↔ j ∈ d.unclosed o k ∧ (ofDocument d).partner? j ≠ some k := by
  rw [mem_unclosed, mem_unclosed]
  constructor
  · rintro ⟨⟨hoj, hjk⟩, hword, hclosed⟩
    refine ⟨⟨⟨hoj, by omega⟩, hword, fun c hc => Nat.le_of_succ_le (hclosed c hc)⟩, fun hk => ?_⟩
    exact Nat.not_succ_le_self k (hclosed k hk)
  · rintro ⟨⟨⟨hoj, hjk⟩, hword, hclosed⟩, hk⟩
    refine ⟨⟨hoj, Nat.lt_succ_of_lt hjk⟩, hword, fun c hc => Nat.lt_of_le_of_ne (hclosed c hc) ?_⟩
    rintro rfl
    exact hk hc

theorem unclosed_opens (hok : o < k) (hk : d.wordAt k = "(") : d.unclosed o (k + 1) = insert k (d.unclosed o k) := by
  ext j
  rw [Finset.mem_insert]
  by_cases hj : j = k
  · subst hj
    refine iff_of_true (mem_unclosed.2 ⟨⟨hok, Nat.lt_succ_self _⟩, hk, fun c hc => ?_⟩) (.inl rfl)
    exact (closes_of_partner? hk hc).1
  · rw [mem_unclosed_succ hj, or_iff_right hj]
    refine and_iff_left_of_imp fun hmem hjk => ?_
    have := hk.symm.trans (closes_of_partner? (mem_unclosed.1 hmem).2.1 hjk).2
    exact absurd this (by decide)

theorem unclosed_word (hopens : d.wordAt k ≠ "(") (hcloses : d.wordAt k ≠ ")") :
    d.unclosed o (k + 1) = d.unclosed o k := by
  ext j
  by_cases hj : j = k
  · subst hj
    exact iff_of_false (fun h => hopens (mem_unclosed.1 h).2.1) fun h => hopens (mem_unclosed.1 h).2.1
  · rw [mem_unclosed_succ hj]
    exact and_iff_left_of_imp fun hmem hjk => hcloses (closes_of_partner? (mem_unclosed.1 hmem).2.1 hjk).2

/-- Between a parenthesis and its partner a closing one closes one of those that are not closed. -/
theorem unclosed_closes (ho : d.wordAt o = "(") (h : (ofDocument d).partner? o = some c) (hok : o < k) (hkc : k < c)
    (hk : d.wordAt k = ")") : ∃ j ∈ d.unclosed o k, d.unclosed o (k + 1) = (d.unclosed o k).erase j := by
  have hcloses : openerOf (d.wordAt k) = some (d.wordAt o) := by
    rw [hk, ho]
    rfl
  obtain ⟨j, hoj, hjk, hj⟩ := Brackets.exists_partner_between h hok hkc (by rwa [d.getD_texts, d.getD_texts])
  have hback : (ofDocument d).partner? j = some k := (matched d).2.symm _ _ hj
  have hopens : d.wordAt j = "(" := by
    rcases (matched d).1 k j hj with ⟨hlt, -⟩ | ⟨-, hpair⟩
    · omega
    · exact (Option.some.inj (hpair.symm.trans hcloses)).trans ho
  refine ⟨j, mem_unclosed.2 ⟨⟨hoj, hjk⟩, hopens, fun b hb => ?_⟩, ?_⟩
  · exact Nat.le_of_eq (Option.some.inj (hback.symm.trans hb))
  · ext i
    rw [Finset.mem_erase, and_comm]
    by_cases hi : i = k
    · subst hi
      have hword : ∀ {k}, i ∈ d.unclosed o k → False := fun h => by
        have := hk.symm.trans (mem_unclosed.1 h).2.1
        exact absurd this (by decide)
      exact iff_of_false hword fun h => hword h.1
    · rw [mem_unclosed_succ hi]
      refine and_congr_right fun _ => not_congr ⟨fun hik => ?_, ?_⟩
      · exact Option.some.inj (((matched d).2.symm _ _ hik).symm.trans hj)
      · rintro rfl
        exact hback

/-! ### The count -/

theorem closingParen_go_cons (d : Document) (depth k : Nat) (ids : List Nat) : closingParen.go d depth (k :: ids) =
    if d.wordAt k = "(" then closingParen.go d (depth + 1) ids
    else if d.wordAt k = ")" then if depth ≤ 1 then k else closingParen.go d (depth - 1) ids
    else closingParen.go d depth ids := by
  rw [closingParen.go]
  simp only [beq_iff_eq]
  rfl

/-- **At each token up to the partner the count stands at the parentheses that are not closed.** -/
theorem closingParen_eq_go (ho : d.wordAt o = "(") (h : (ofDocument d).partner? o = some c) (hok : o < k)
    (hkc : k ≤ c) : d.closingParen o = closingParen.go d ((d.unclosed o k).card + 1) (List.range' k (d.size - k)) := by
  have hc : c < d.size := (matched d).2.lt _ _ h
  have hids : ∀ i ≤ c, List.range' i (d.size - i) = i :: List.range' (i + 1) (d.size - (i + 1)) := fun i hi => by
    rw [show d.size - i = d.size - (i + 1) + 1 by omega, List.range'_succ]
  induction hok with
  | refl =>
    rw [closingParen, hids o (Nat.le_of_succ_le hkc), closingParen_go_cons, if_pos ho, unclosed_start]
    rfl
  | @step k hok ih =>
    rw [ih (Nat.le_of_succ_le hkc), hids k (Nat.le_of_succ_le hkc), closingParen_go_cons]
    split
    · rename_i hopens
      have hnew : k ∉ d.unclosed o k := fun hk => Nat.lt_irrefl k (mem_unclosed.1 hk).1.2
      rw [unclosed_opens hok hopens, Finset.card_insert_of_notMem hnew]
    split
    · rename_i hcloses
      obtain ⟨j, hj, hsucc⟩ := unclosed_closes ho h hok hkc hcloses
      have hpos := Finset.card_pos.2 ⟨j, hj⟩
      rw [if_neg (by omega), hsucc, Finset.card_erase_of_mem hj, Nat.add_sub_cancel, Nat.sub_add_cancel hpos]
    · rw [unclosed_word ‹_› ‹_›]

/-- Has every parenthesis between two tokens a partner? -/
def AllPaired (d : Document) (o c : Nat) : Prop :=
  ∀ j, o < j → j < c → d.wordAt j = "(" → (ofDocument d).partner? j ≠ none

/-- In front of the partner the parentheses that are not closed are those that were dropped. -/
theorem unclosed_eq_empty_iff (h : (ofDocument d).partner? o = some c) (hoc : o < c) :
    d.unclosed o c = ∅ ↔ d.AllPaired o c := by
  rw [Finset.eq_empty_iff_forall_notMem]
  constructor
  · intro hempty j hoj hjc hj hnone
    refine hempty j (mem_unclosed.2 ⟨⟨hoj, hjc⟩, hj, fun b hb => ?_⟩)
    rw [hnone] at hb
    cases hb
  · intro hall j hmem
    obtain ⟨⟨hoj, hjc⟩, hj, hclosed⟩ := mem_unclosed.1 hmem
    obtain ⟨b, hb⟩ := Option.ne_none_iff_exists'.1 (hall j hoj hjc hj)
    have hjb := (closes_of_partner? hj hb).1
    have hcb := hclosed b hb
    rcases Brackets.apart_of_partner? h hoc hb hjb hoj with hcj | hbc
    · omega
    · omega

/-- At the partner the count ends, or it goes on with the parentheses that were dropped in between. -/
theorem closingParen_eq (ho : d.wordAt o = "(") (h : (ofDocument d).partner? o = some c) : d.closingParen o =
    if d.unclosed o c = ∅ then c
    else closingParen.go d (d.unclosed o c).card (List.range' (c + 1) (d.size - (c + 1))) := by
  obtain ⟨hoc, hcloses⟩ := closes_of_partner? ho h
  have hc : c < d.size := (matched d).2.lt _ _ h
  rw [closingParen_eq_go ho h hoc (Nat.le_refl c), show d.size - c = d.size - (c + 1) + 1 by omega, List.range'_succ,
    closingParen_go_cons, hcloses, if_neg (by decide), if_pos rfl, Nat.add_sub_cancel]
  refine if_congr ?_ rfl rfl
  rw [← Finset.card_eq_zero]
  omega

/-- **The count ends at the partner, or behind it**: at the partner when no parenthesis in between was dropped. -/
theorem closingParen_eq_iff (ho : d.wordAt o = "(") (h : (ofDocument d).partner? o = some c) (hend : c < d.endOfFile) :
    c ≤ d.closingParen o ∧ (d.closingParen o = c ↔ d.AllPaired o c) := by
  rw [closingParen_eq ho h, ← unclosed_eq_empty_iff h (closes_of_partner? ho h).1]
  split
  · exact ⟨Nat.le_refl c, iff_of_true rfl ‹_›⟩
  · have hbehind : c < closingParen.go d (d.unclosed o c).card (List.range' (c + 1) (d.size - (c + 1))) := by
      rcases d.closingParen_go (List.range' (c + 1) (d.size - (c + 1))) (d.unclosed o c).card with hmem | heof
      · exact Nat.lt_of_succ_le (List.mem_range'_1.1 hmem).1
      · exact heof ▸ hend
    exact ⟨Nat.le_of_lt hbehind, iff_of_false (Nat.ne_of_gt hbehind) ‹_›⟩

end Document

/-- The call whose parenthesis is not that of the call of a member. -/
theorem RuleContext.callAt_of_plain {r : RuleContext} {o : Nat}
    (h : ∀ receiver name closing, SyntaxNode.memberInvocation receiver name o closing ∉ r.tree.nodes) (callee : Nat) :
    r.callAt callee o =
      { extent := ⟨(r.document.span callee).start, (r.document.span (r.document.closingParen o)).stop⟩
        member := none } := by
  rw [callAt]
  split
  · rename_i hfound
    obtain ⟨n, hn, hsome⟩ := List.exists_of_findSome?_eq_some hfound
    split at hsome
    · split at hsome
      · subst_vars
        exact absurd (List.mem_reverse.1 hn) (h _ _ _)
      · cases hsome
    · cases hsome
  · rfl

namespace Document

open Outline (ofDocument)

variable {d : Document} {o c : Nat}

/-- **Counting parentheses finds the partner that the table of brackets has for one, unless a parenthesis in between was
dropped from the table: then it goes on behind the partner.** So a call that is not one of a member goes up to the
partner of its parenthesis, or farther when the brackets in it do not match. -/
theorem closingParen_of_ofSource {s : String} (h : ofSource s = .ok d) (ho : d.wordAt o = "(")
    (hc : (ofDocument d).partner? o = some c) :
    (o < c ∧ d.wordAt c = ")") ∧ c ≤ d.closingParen o ∧ (d.closingParen o = c ↔ d.AllPaired o c) ∧
      ∀ r : RuleContext, r.document = d →
        (∀ receiver name closing, SyntaxNode.memberInvocation receiver name o closing ∉ r.tree.nodes) → ∀ callee,
          (d.AllPaired o c →
            r.callAt callee o = { extent := ⟨(d.span callee).start, (d.span c).stop⟩, member := none }) ∧
          (r.callAt callee o).member = none ∧ (d.span c).stop ≤ (r.callAt callee o).extent.stop := by
  obtain ⟨hoc, hcloses⟩ := closes_of_partner? ho hc
  have hsize : c < d.size := (Outline.matched d).2.lt _ _ hc
  have hend : c ≠ d.endOfFile := fun hc => by
    rw [hc, (parsed_of_ofSource h).1.proper.wordAt_endOfFile.1] at hcloses
    exact absurd hcloses (by decide)
  obtain ⟨hle, hiff⟩ := closingParen_eq_iff ho hc (by have := d.size_eq; omega)
  refine ⟨⟨hoc, hcloses⟩, hle, hiff, fun r hr hplain callee => ?_⟩
  subst hr
  rw [RuleContext.callAt_of_plain hplain]
  refine ⟨fun hpaired => by rw [hiff.2 hpaired], rfl, ?_⟩
  have hclosing := (r.document.closingParen_bounds (Nat.lt_trans hoc hsize)).2
  rcases Nat.lt_or_eq_of_le hle with hlt | heq
  · exact Nat.le_trans (r.document.span_stop_le hlt hclosing) (Nat.le_add_right _ _)
  · exact Nat.le_of_eq (by rw [← heq])

/-- The brackets that are dropped here are not parentheses. -/
theorem closingParen_of_ofSource_call : ∃ d t, ofSource "f([(a) + \x7bb);" = .ok d ∧
    SyntaxTree.ofDocument? d = some t ∧ d.closingParen 1 = 9 ∧
      ({ document := d, tree := t } : RuleContext).callAt 0 1 = { extent := ⟨0, 12⟩, member := none } := by
  obtain ⟨d, hd, h⟩ := exists_ok_of_any (e := ofSource "f([(a) + \x7bb);") (p := fun d =>
    (d.wordAt 1 == "(" && (ofDocument d).partner? 1 == some 9 && (d.span 0).start == 0 && (d.span 9).stop == 12 &&
      (List.range 9).all fun j => j ≤ 1 || d.wordAt j != "(" || ((ofDocument d).partner? j).isSome) &&
      (SyntaxTree.ofDocument? d).any fun t => t.nodes.all fun n => n.kind != .memberInvocation)
    (by
      unfold SyntaxTree.ofDocument? Outline.tree?
      simp -zeta only [SyntaxTree.ofNodes_eq]
      decide +kernel)
  simp only [Bool.and_eq_true, beq_iff_eq, List.all_eq_true, List.mem_range, Option.any_eq_true] at h
  obtain ⟨⟨⟨⟨⟨ho, hc⟩, hstart⟩, hstop⟩, hpaired⟩, t, ht, hplain⟩ := h
  obtain ⟨-, -, hiff, hcall⟩ := closingParen_of_ofSource hd ho hc
  have hall : d.AllPaired 1 9 := fun j hoj hjc hj hnone => by
    have := hpaired j hjc
    simp [hj, hnone, Nat.not_le.2 hoj] at this
  refine ⟨d, t, hd, ht, hiff.2 hall, ?_⟩
  have hcall := (hcall { document := d, tree := t } rfl (fun _ _ _ hmem => Bool.false_ne_true (hplain _ hmem)) 0).1 hall
  rw [hcall, hstart, hstop]

/-- The square bracket drops the parenthesis in front of it, which the count still takes to be open: so the partner of
the first one does not end the count. -/
theorem closingParen_dropped : ∃ d, ofSource "f([(]);" = .ok d ∧ d.wordAt 1 = "(" ∧
    (ofDocument d).partner? 1 = some 5 ∧ d.closingParen 1 = d.endOfFile ∧ d.endOfFile = 7 := by
  obtain ⟨d, hd, h⟩ := exists_ok_of_any (e := ofSource "f([(]);") (p := fun d =>
    d.wordAt 1 == "(" && (ofDocument d).partner? 1 == some 5 && d.closingParen 1 == d.endOfFile && d.endOfFile == 7)
    (by decide +kernel)
  simp only [Bool.and_eq_true, beq_iff_eq] at h
  obtain ⟨⟨⟨ho, hc⟩, hclosing⟩, hend⟩ := h
  exact ⟨d, hd, ho, hc, hclosing, hend⟩

end Document

end LayoutLint
