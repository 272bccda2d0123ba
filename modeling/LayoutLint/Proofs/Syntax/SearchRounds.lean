import LayoutLint.Proofs.Layout.Programs
import LayoutLint.Proofs.Syntax.StatementEnds
import Mathlib.Data.Finset.Card
import Mathlib.Data.Finset.Range
/-!
# SearchRounds — a search that runs out of rounds never ends

The end of a statement, and that of a chain of branches, is looked for in a number of rounds. What is found in some
rounds is found in more of them, and when one more round finds nothing new from any start, no further round does. Up to
then each round finds an end from at least one more start, so there are no more of these rounds than tokens to start
from (`BoundedSearch.foundWithin`). So it does not matter how many rounds the searches are given
(`Outline.statementEnd?_eq_none_iff`), and a text that is not a program, though it is not too large, is one in which a
search goes on forever (`Program.exists_parse_iff`).
-/
namespace LayoutLint

theorem bind_mono {α β : Type} {x x' : Option α} {f f' : α → Option β} (hx : ∀ a, x = some a → x' = some a)
    (hf : ∀ a b, f a = some b → f' a = some b) (b : β) (h : x.bind f = some b) : x'.bind f' = some b := by
  obtain ⟨a, ha, hb⟩ := Option.bind_eq_some_iff.1 h
  exact Option.bind_eq_some_iff.2 ⟨a, hx a ha, hf a b hb⟩

variable {α : Type} {search : Nat → Nat → Option α} {stop : Nat}

/-- What is found in `m` rounds is found in `n` rounds. -/
def FoundWithin (search : (rounds s : Nat) → Option α) (m n : Nat) : Prop :=
  ∀ s e, search m s = some e → search n s = some e

/-- A search in rounds: nothing is found in none, a round finds more only when the rounds after it do, and from `stop`
on something is found in one. -/
structure BoundedSearch (search : (rounds s : Nat) → Option α) (stop : Nat) : Prop where
  zero (s : Nat) : search 0 s = none
  round {m n : Nat} (h : FoundWithin search m n) : FoundWithin search (m + 1) (n + 1)
  behind {s : Nat} (h : stop ≤ s) : (search 1 s).isSome = true

/-- The starts in front of `stop` from which something is found. -/
def foundFrom (search : (rounds s : Nat) → Option α) (stop rounds : Nat) : Finset Nat :=
  (Finset.range stop).filter fun s => (search rounds s).isSome = true

theorem card_foundFrom_le (rounds : Nat) : (foundFrom search stop rounds).card ≤ stop :=
  (Finset.card_filter_le _ _).trans_eq (Finset.card_range stop)

namespace BoundedSearch

/-- A round more finds what was found before. -/
theorem foundWithin_succ (h : BoundedSearch search stop) (n : Nat) : FoundWithin search n (n + 1) := by
  induction n with
  | zero =>
    intro s e he
    rw [h.zero] at he
    cases he
  | succ n ih => exact h.round ih

theorem foundWithin_one (h : BoundedSearch search stop) (n : Nat) : FoundWithin search 1 (n + 1) := by
  induction n with
  | zero => exact fun _ _ he => he
  | succ n ih => exact fun s e he => h.foundWithin_succ (n + 1) s e (ih s e he)

theorem foundFrom_subset (h : BoundedSearch search stop) (n : Nat) :
    foundFrom search stop n ⊆ foundFrom search stop (n + 1) := by
  refine Finset.monotone_filter_right _ fun s _ hs => ?_
  obtain ⟨e, he⟩ := Option.isSome_iff_exists.1 hs
  rw [h.foundWithin_succ n s e he]
  rfl

/-- A round that finds something from no further start finds nothing new. -/
theorem foundWithin_of_subset (h : BoundedSearch search stop) {n : Nat}
    (hsub : foundFrom search stop (n + 2) ⊆ foundFrom search stop (n + 1)) : FoundWithin search (n + 2) (n + 1) := by
  intro s e he
  have hsome : (search (n + 1) s).isSome = true := by
    rcases Nat.lt_or_ge s stop with hs | hs
    · exact (Finset.mem_filter.1 (hsub (Finset.mem_filter.2 ⟨Finset.mem_range.2 hs, by rw [he]; rfl⟩))).2
    · obtain ⟨a, ha⟩ := Option.isSome_iff_exists.1 (h.behind hs)
      rw [h.foundWithin_one n s a ha]
      rfl
  obtain ⟨e', he'⟩ := Option.isSome_iff_exists.1 hsome
  rw [he', ← h.foundWithin_succ (n + 1) s e' he', he]

/-- As long as a round finds something new, there is a start more from which something is found. -/
theorem foundWithin_or_lt_card (h : BoundedSearch search stop) (n : Nat) :
    FoundWithin search (n + 2) (n + 1) ∨ n < (foundFrom search stop (n + 2)).card := by
  -- Either the round finds something from no further start, or the starts have become more.
  have hround : ∀ n, FoundWithin search (n + 2) (n + 1) ∨
      (foundFrom search stop (n + 1)).card < (foundFrom search stop (n + 2)).card := fun n =>
    (h.foundFrom_subset (n + 1)).eq_or_ssubset.imp (fun heq => h.foundWithin_of_subset heq.symm.subset)
      Finset.card_lt_card
  induction n with
  | zero => exact (hround 0).imp_right (Nat.lt_of_le_of_lt (Nat.zero_le _))
  | succ n ih =>
    rcases ih with ih | ih
    · exact .inl (h.round ih)
    · exact (hround (n + 1)).imp_right (Nat.lt_of_le_of_lt (Nat.succ_le_of_lt ih))

/-- **What is found in any number of rounds is found in one more than there are starts in front of `stop`.** -/
theorem foundWithin (h : BoundedSearch search stop) (n : Nat) : FoundWithin search n (stop + 1) := by
  have hlast : FoundWithin search (stop + 2) (stop + 1) :=
    (h.foundWithin_or_lt_card stop).resolve_right (Nat.not_lt.2 (card_foundFrom_le _))
  induction n with
  | zero =>
    intro s e he
    rw [h.zero] at he
    cases he
  | succ n ih => exact fun s e he => hlast s e (h.round ih s e he)

/-- **A search with more rounds than starts in front of `stop` finds what it finds in any number of rounds.** -/
theorem eq_none_iff (h : BoundedSearch search stop) {s : Nat} :
    search (stop + 2) s = none ↔ ∀ n, search n s = none := by
  refine ⟨fun hnone n => Option.eq_none_iff_forall_ne_some.2 fun e he => ?_, fun hall => hall _⟩
  rw [h.foundWithin_succ _ s e (h.foundWithin n s e he)] at hnone
  cases hnone

end BoundedSearch

namespace Outline

variable {o : Outline}

/-! ### Ends of statements -/

theorem boundedSearch_statementEndWithin? (o : Outline) : BoundedSearch o.statementEndWithin? o.eof where
  zero _ := rfl
  round {m n} h s e := by
    rw [statementEndWithin?, statementEndWithin?]
    split
    · exact id
    split
    · exact id
    -- `if`
    split
    · split
      · exact id
      · refine bind_mono (h _) (fun last e => ?_) e
        split
        · exact h _ e
        · exact id
    -- one statement behind a head
    split
    · split
      · exact id
      · exact h _ e
    -- `do`
    split
    · exact bind_mono (h _) (fun _ _ => id) e
    · exact id
  behind h := by rw [statementEndWithin?, if_pos h]; rfl

/-- No number of rounds is enough to find the end of the statement at token `s`. -/
def Endless (o : Outline) (s : Nat) : Prop := ∀ rounds, o.statementEndWithin? rounds s = none

/-- **The end of a statement is not found only where it is looked for without end.** -/
theorem statementEnd?_eq_none_iff {s : Nat} : o.statementEnd? s = none ↔ o.Endless s := by
  have hsize : o.document.size = o.eof + 1 := o.document.size_eq
  rw [statementEnd?, hsize, o.boundedSearch_statementEndWithin?.eq_none_iff, Endless]

/-! ### Ends of chains of branches -/

theorem boundedSearch_elseChainWithin? (o : Outline) : BoundedSearch o.elseChainWithin? o.eof where
  zero _ := rfl
  round {m n} h last e := by
    rw [elseChainWithin?, elseChainWithin?]
    split
    · split
      · split
        · exact id
        · exact bind_mono (fun _ => id) (fun next => h next) e
      · exact id
    · exact id
  behind {last} h := by
    have helse : o.isKeyword (last + 1) "else" ≠ true := fun helse => by
      have := lt_eof_of_isKeyword helse
      omega
    rw [elseChainWithin?, if_neg helse]
    rfl

/-- No number of rounds is enough to find the end of the chain of branches of which the last so far ends at token
`last`. -/
def EndlessChain (o : Outline) (last : Nat) : Prop := ∀ rounds, o.elseChainWithin? rounds last = none

theorem elseChain_eq_none_iff {last : Nat} :
    o.elseChainWithin? (o.document.size + 1) last = none ↔ o.EndlessChain last := by
  have hsize : o.document.size = o.eof + 1 := o.document.size_eq
  rw [hsize, o.boundedSearch_elseChainWithin?.eq_none_iff, EndlessChain]

/-! ### Trees -/

theorem usingStatements?_eq_none_iff : o.usingStatements? = none ↔ ∃ p ∈ o.usingHeads, o.Endless p.2 := by
  rw [usingStatements?, mapM_eq_none_iff]
  refine exists_congr fun p => and_congr_right fun _ => ?_
  obtain ⟨keyword, body⟩ := p
  rw [← statementEnd?_eq_none_iff]
  show (o.statementEnd? body).bind _ = none ↔ _
  cases o.statementEnd? body with
  | none => exact iff_of_true rfl rfl
  | some last => exact iff_of_false (fun h => by cases h) fun h => by cases h

theorem ifStatements?_eq_none_iff {roles : Array (Option OperatorRole)} : o.ifStatements? roles = none ↔
    ∃ p ∈ o.ifHeads, o.Endless (p.2 + 1) ∨ ∃ e, o.statementEnd? (p.2 + 1) = some e ∧ o.EndlessChain e := by
  rw [ifStatements?, mapM_eq_none_iff]
  refine exists_congr fun p => and_congr_right fun _ => ?_
  obtain ⟨keyword, close⟩ := p
  simp only [← statementEnd?_eq_none_iff, ← elseChain_eq_none_iff]
  show (o.statementEnd? (close + 1)).bind (fun first => (o.elseChainWithin? _ first).bind _) = none ↔ _
  cases o.statementEnd? (close + 1) with
  | none => exact iff_of_true rfl (.inl rfl)
  | some first =>
    show (o.elseChainWithin? _ first).bind _ = none ↔ _
    cases hchain : o.elseChainWithin? (o.document.size + 1) first with
    | none => exact iff_of_true rfl (.inr ⟨first, rfl, hchain⟩)
    | some r =>
      refine iff_of_false (fun h => by cases h) ?_
      rintro (h | ⟨e, he, h⟩)
      · cases h
      · obtain rfl := Option.some.inj he
        rw [hchain] at h
        cases h

/-- Some search in the document goes on forever: one for the end of the body of a `using` statement, one for the end of
the first branch of an `if` statement, or one for the end of a chain of branches. -/
def SearchesForever (o : Outline) : Prop :=
  (∃ p ∈ o.usingHeads, o.Endless p.2) ∨
    ∃ p ∈ o.ifHeads, o.Endless (p.2 + 1) ∨ ∃ e, o.statementEnd? (p.2 + 1) = some e ∧ o.EndlessChain e

/-- **A document has no tree only where a search goes on forever.** -/
theorem tree?_eq_none_iff : o.tree? = none ↔ o.SearchesForever := by
  unfold tree?
  extract_lets size scopes attributeLists listNames attributeNodes attributeOpens declarations declarationOpens declared
    parameterLists parameterOpens claimed keywordOperands claimed₁ creations claimed₂ invocations claimed₃ casts
    roles
  rw [SearchesForever, ← usingStatements?_eq_none_iff, ← @ifStatements?_eq_none_iff o roles]
  cases o.usingStatements? with
  | none => exact iff_of_true rfl (.inl rfl)
  | some usings =>
    cases o.ifStatements? roles with
    | none => exact iff_of_true rfl (.inr rfl)
    | some ifs => exact iff_of_false (fun h => by cases h) fun h => by rcases h with h | h <;> cases h

end Outline

/-- **Which texts are programs**: those that are not too large and in which every search ends. -/
theorem Program.exists_parse_iff {s : String} : (∃ p, Program.parse s = .ok p) ↔ s.utf8ByteSize ≤ maxBytes ∧
    ∀ d, Document.ofSource s = .ok d → ¬ (Outline.ofDocument d).SearchesForever := by
  constructor
  · rintro ⟨p, hp⟩
    obtain ⟨hsize, hdoc, htree⟩ := Program.parse_eq_ok_iff.1 hp
    refine ⟨hsize, fun d hd hforever => ?_⟩
    obtain rfl := Except.ok.inj (hdoc.symm.trans hd)
    rw [SyntaxTree.ofDocument?, Outline.tree?_eq_none_iff.2 hforever] at htree
    cases htree
  · rintro ⟨hsize, hends⟩
    obtain ⟨d, hd⟩ := Document.exists_ofSource hsize
    obtain ⟨t, ht⟩ := Option.ne_none_iff_exists'.1 fun hnone => hends d hd (Outline.tree?_eq_none_iff.1 hnone)
    exact ⟨⟨d, t⟩, Program.parse_eq_ok_iff.2 ⟨hsize, hd, ht⟩⟩

end LayoutLint
