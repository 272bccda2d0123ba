import LayoutLint.Proofs.Rules.Regions
/-!
# OutermostCalls — the calls that are not part of another call

Calls are taken in the order of their starts, each that does not start inside of the one taken before it
(`TestCall.outermostFrom`). As no call is empty, those that are taken stand one behind another
(`TestCall.pairwise_outermostFrom`), and each that is left out starts inside of one that is taken
(`TestCall.mem_outermostFrom`). This holds of every run of tokens as a body, so the calls that one test is blamed for
never overlap (`Program.outermost_of_parse`).
-/
namespace LayoutLint

namespace TestCall

variable {call : TestCall}

/-! ### The order of calls -/

theorem outerFirst_iff {a b : TestCall} : a.outerFirst b = true ↔
    a.extent.start < b.extent.start ∨ a.extent.start = b.extent.start ∧ b.extent.stop ≤ a.extent.stop := by
  simp [outerFirst]

theorem outerFirst_trans (a b c : TestCall) (hab : a.outerFirst b = true) (hbc : b.outerFirst c = true) :
    a.outerFirst c = true := by
  rw [outerFirst_iff] at *
  omega

theorem outerFirst_total (a b : TestCall) : (a.outerFirst b || b.outerFirst a) = true := by
  rw [Bool.or_eq_true, outerFirst_iff, outerFirst_iff]
  omega

theorem pairwise_mergeSort_outerFirst (calls : List TestCall) :
    (calls.mergeSort outerFirst).Pairwise fun a b => a.extent.start ≤ b.extent.start := by
  refine (List.pairwise_mergeSort outerFirst_trans outerFirst_total calls).imp fun {a b} hab => ?_
  rw [outerFirst_iff] at hab
  omega

/-! ### Taking in order -/

theorem le_start_of_mem_outermostFrom : ∀ {calls : List TestCall} {reached : Nat},
    (∀ a ∈ calls, a.extent.start < a.extent.stop) → call ∈ outermostFrom reached calls → reached ≤ call.extent.start
  | [], _, _, h => absurd h List.not_mem_nil
  | a :: rest, reached, hne, h => by
    have hrest : ∀ b ∈ rest, b.extent.start < b.extent.stop := fun b hb => hne b (List.mem_cons_of_mem _ hb)
    rw [outermostFrom] at h
    split at h
    · exact le_start_of_mem_outermostFrom hrest h
    · rcases List.mem_cons.1 h with rfl | h
      · omega
      · have := le_start_of_mem_outermostFrom hrest h
        have := hne a List.mem_cons_self
        omega

/-- **The calls that are taken stand one behind another.** -/
theorem pairwise_outermostFrom : ∀ {calls : List TestCall} {reached : Nat},
    (∀ a ∈ calls, a.extent.start < a.extent.stop) →
      (outermostFrom reached calls).Pairwise fun a b => a.extent.stop ≤ b.extent.start
  | [], _, _ => .nil
  | a :: rest, reached, hne => by
    have hrest : ∀ b ∈ rest, b.extent.start < b.extent.stop := fun b hb => hne b (List.mem_cons_of_mem _ hb)
    rw [outermostFrom]
    split
    · exact pairwise_outermostFrom hrest
    · exact .cons (fun b hb => le_start_of_mem_outermostFrom hrest hb) (pairwise_outermostFrom hrest)

/-- **A call is taken, or starts inside of one that is**, or in front of where taking begins. -/
theorem mem_outermostFrom {calls : List TestCall} (hsorted : calls.Pairwise fun a b => a.extent.start ≤ b.extent.start)
    (h : call ∈ calls) (reached : Nat) : call ∈ outermostFrom reached calls ∨ call.extent.start < reached ∨
      ∃ taken ∈ outermostFrom reached calls,
        taken.extent.start ≤ call.extent.start ∧ call.extent.start < taken.extent.stop := by
  induction calls generalizing reached with
  | nil => exact absurd h List.not_mem_nil
  | cons a rest ih =>
    obtain ⟨hhead, hrest⟩ := List.pairwise_cons.1 hsorted
    rw [outermostFrom]
    split
    · rename_i hinside
      rcases List.mem_cons.1 h with rfl | h
      · exact .inr (.inl hinside)
      · exact ih hrest h reached
    · rcases List.mem_cons.1 h with rfl | h
      · exact .inl List.mem_cons_self
      · rcases ih hrest h a.extent.stop with hmem | hinside | ⟨taken, htaken, hstart⟩
        · exact .inl (List.mem_cons_of_mem _ hmem)
        · exact .inr (.inr ⟨a, List.mem_cons_self, hhead _ h, hinside⟩)
        · exact .inr (.inr ⟨taken, List.mem_cons_of_mem _ htaken, hstart⟩)

end TestCall

namespace RuleContext

variable {c : RuleContext} {body : TokenRange}

theorem mem_callsIn {call : TestCall} : call ∈ c.callsIn body ↔ ∃ callee opening,
    .invocation callee opening ∈ c.tree.nodes ∧ body.contains opening = true ∧ call = c.callAt callee opening := by
  rw [callsIn, List.mem_filterMap]
  constructor
  · rintro ⟨node, hnode, h⟩
    split at h
    · split at h
      · rename_i hbody
        exact ⟨_, _, hnode, hbody, (Option.some.inj h).symm⟩
      · cases h
    · cases h
  · rintro ⟨callee, opening, hnode, hbody, rfl⟩
    exact ⟨_, hnode, if_pos hbody⟩

/-- The calls that are taken of a body: calls of the body, none empty, one behind another, and every call of the body
starts inside of one of them if it is not one itself. -/
structure Outermost (c : RuleContext) (body : TokenRange) : Prop where
  invocation : ∀ call ∈ c.outermostCalls body, ∃ callee opening, .invocation callee opening ∈ c.tree.nodes ∧
    body.contains opening = true ∧ call = c.callAt callee opening
  nonempty : ∀ call ∈ c.outermostCalls body, call.extent.start < call.extent.stop
  apart : (c.outermostCalls body).Pairwise fun a b =>
    a.extent.start < b.extent.start ∧ a.extent.stop ≤ b.extent.start
  covered : ∀ callee opening, .invocation callee opening ∈ c.tree.nodes → body.contains opening = true →
    c.callAt callee opening ∈ c.outermostCalls body ∨ ∃ taken ∈ c.outermostCalls body,
      taken.extent.start ≤ (c.callAt callee opening).extent.start ∧
        (c.callAt callee opening).extent.start < taken.extent.stop

theorem outermost (hd : c.document.Parsed) (ht : SyntaxTree.ofDocument? c.document = some c.tree) (body : TokenRange) :
    c.Outermost body := by
  have hne : ∀ call ∈ (c.callsIn body).mergeSort TestCall.outerFirst, call.extent.start < call.extent.stop := by
    intro call hcall
    obtain ⟨callee, opening, hnode, -, rfl⟩ := mem_callsIn.1 (List.mem_mergeSort.1 hcall)
    obtain ⟨first, last, hextent, hle, hfirst, hlast⟩ := extent_of_invocation hd ht hnode
    rw [hextent]
    exact hd.proper.start_lt_stop hle hfirst hlast
  have htaken : ∀ call ∈ c.outermostCalls body, call ∈ (c.callsIn body).mergeSort TestCall.outerFirst :=
    fun call hcall => TestCall.mem_of_mem_outermostFrom hcall
  refine ⟨fun call hcall => ?_, fun call hcall => hne call (htaken call hcall), ?_,
    fun callee opening hnode hbody => ?_⟩
  · exact mem_callsIn.1 (List.mem_mergeSort.1 (htaken call hcall))
  · refine (TestCall.pairwise_outermostFrom hne).imp_of_mem fun {a b} ha _ hab => ⟨?_, hab⟩
    have := hne a (htaken a ha)
    omega
  · have hcall : c.callAt callee opening ∈ (c.callsIn body).mergeSort TestCall.outerFirst :=
      List.mem_mergeSort.2 (mem_callsIn.2 ⟨callee, opening, hnode, hbody, rfl⟩)
    rcases TestCall.mem_outermostFrom (TestCall.pairwise_mergeSort_outerFirst _) hcall 0 with h | h | h
    · exact .inl h
    · exact absurd h (Nat.not_lt_zero _)
    · exact .inr h

end RuleContext

/-- What a method is blamed for are calls that are taken of a body. -/
theorem Rule.sublist_extensionMethodCallInTests (c : RuleContext) (node : SyntaxNode) : ∃ body : TokenRange,
    ((Rule.extensionMethodCallInTests.checkNode c node).map Violation.span).Sublist
      ((c.outermostCalls body).map TestCall.extent) := by
  simp only [Rule.extensionMethodCallInTests]
  split
  · split
    · rename_i body _
      split
      · refine ⟨body, ?_⟩
        rw [List.map_map]
        exact List.filter_sublist.map _
      · exact ⟨body, List.nil_sublist _⟩
    · exact ⟨⟨0, 0⟩, List.nil_sublist _⟩
  · exact ⟨⟨0, 0⟩, List.nil_sublist _⟩

/-- **Only outermost calls are looked at, and none is lost**: the calls that are taken of a body stand one behind
another, and every call of the body starts inside of one of them. What a test is blamed for does not overlap. -/
theorem Program.outermost_of_parse {s : String} {p : Program} (hp : Program.parse s = .ok p)
    (options : AnalyzerOptions) (cancelled : Bool) :
    let c : RuleContext := { document := p.document, tree := p.tree, options, cancelled }
    (∀ body, c.Outermost body) ∧ ∀ method,
      (Rule.extensionMethodCallInTests.checkNode c (.method method)).Pairwise (fun v w => v.span.stop ≤ w.span.start) ∧
        ∀ v ∈ Rule.extensionMethodCallInTests.checkNode c (.method method), v.span.start < v.span.stop := by
  intro c
  obtain ⟨-, hdoc, htree⟩ := Program.parse_eq_ok_iff.1 hp
  obtain ⟨hd, -⟩ := Document.parsed_of_ofSource hdoc
  have houter : ∀ body, c.Outermost body := RuleContext.outermost hd htree
  refine ⟨houter, fun method => ?_⟩
  obtain ⟨body, hsub⟩ := Rule.sublist_extensionMethodCallInTests c (.method method)
  constructor
  · have hspans : ((c.outermostCalls body).map TestCall.extent).Pairwise fun s t : Span => s.stop ≤ t.start :=
      List.pairwise_map.2 ((houter body).apart.imp And.right)
    exact List.pairwise_map.1 (hspans.sublist hsub)
  · intro v hv
    obtain ⟨call, hcall, hspan⟩ := List.mem_map.1 (hsub.subset (List.mem_map_of_mem hv))
    rw [← hspan]
    exact (houter body).nonempty call hcall

/-! ### A run on a text -/

theorem SyntaxTree.ofNodes_eq (nodes : List SyntaxNode) (imports : List String) : ofNodes nodes imports =
    { nodes := nodes.insertionSort fun m n => decide (m.anchor ≤ n.anchor) = true, imports } := by
  rw [ofNodes, stable_mergeSort_eq_insertionSort]
  · simp only [decide_eq_true_eq]
    exact fun _ _ _ => Nat.le_trans
  · simp only [Bool.or_eq_true, decide_eq_true_eq]
    exact fun _ _ => Nat.le_total _ _

theorem RuleContext.outermostCalls_eq (c : RuleContext) (body : TokenRange) : c.outermostCalls body =
    TestCall.outermostFrom 0 ((c.callsIn body).insertionSort fun a b => a.outerFirst b = true) := by
  rw [outermostCalls, stable_mergeSort_eq_insertionSort TestCall.outerFirst_trans TestCall.outerFirst_total]

/-- A call that is an argument, and one that is a receiver. -/
theorem Program.outermost_of_parse_nested : ∃ p method body,
    Program.parse "class A \x7b [NUnit.Framework.Test] int F(this int x) => x.F(x.F()) + x.F().F(); \x7d" = .ok p ∧
    method ∈ p.tree.methods ∧ method.body = some body ∧
    let c : RuleContext := { document := p.document, tree := p.tree }
    (c.callsIn body).map TestCall.extent = [⟨54, 64⟩, ⟨58, 63⟩, ⟨67, 72⟩, ⟨67, 76⟩] ∧
    (c.outermostCalls body).map TestCall.extent = [⟨54, 64⟩, ⟨67, 76⟩] ∧ c.Outermost body ∧
    (Rule.extensionMethodCallInTests.checkNode c (.method method)).map Violation.span = [⟨54, 64⟩, ⟨67, 76⟩] ∧
    (Rule.extensionMethodCallInTests.checkNode c (.method method)).Pairwise fun v w => v.span.stop ≤ w.span.start := by
  obtain ⟨p, hp, h⟩ := exists_ok_of_any
    (e := Program.parse "class A \x7b [NUnit.Framework.Test] int F(this int x) => x.F(x.F()) + x.F().F(); \x7d")
    (p := fun p =>
      let c : RuleContext := { document := p.document, tree := p.tree }
      p.tree.methods.any fun m => m.body.any fun body => decide (
        (c.callsIn body).map TestCall.extent = [⟨54, 64⟩, ⟨58, 63⟩, ⟨67, 72⟩, ⟨67, 76⟩] ∧
        (c.outermostCalls body).map TestCall.extent = [⟨54, 64⟩, ⟨67, 76⟩] ∧
        (Rule.extensionMethodCallInTests.checkNode c (.method m)).map Violation.span = [⟨54, 64⟩, ⟨67, 76⟩]))
    (by
      unfold Program.parse SyntaxTree.ofDocument? Outline.tree? Rule.extensionMethodCallInTests
      simp -zeta only [SyntaxTree.ofNodes_eq, RuleContext.outermostCalls_eq]
      decide +kernel)
  obtain ⟨m, hm, h⟩ := List.any_eq_true.1 h
  obtain ⟨body, hbody, h⟩ := (Option.any_eq_true _ _).1 h
  obtain ⟨hcalls, htaken, hspans⟩ := of_decide_eq_true h
  obtain ⟨houter, hmethod⟩ := Program.outermost_of_parse hp {} false
  exact ⟨p, m, body, hp, hm, hbody, hcalls, htaken, houter body, hspans, (hmethod m).1⟩

end LayoutLint
