import LayoutLint.Proofs.Syntax.Balanced
import LayoutLint.Proofs.Syntax.SearchRounds
/-!
# StatementSearch — looking for the end of a statement goes forwards

The search for the end of a statement looks at tokens behind the one it starts at, and a chain of branches is followed
from the end of one branch to the end of a later one, as long as no `try` and no `while` leads back
(`Outline.HeadsOpenFrom`). So the rounds that a search has are enough, every branch ends behind the one before it, and
every document has a tree (`Outline.search_of_headsOpen`). Where a head leads back, the end that is found can stand in
front of the statement, and a chain of branches can run in a circle.
-/
namespace LayoutLint

namespace Outline

variable {o : Outline}

/-! ### Searches end -/

/-- A search that has a round for each token from its start on ends. -/
theorem exists_statementEndWithin? {rounds s : Nat} (hopen : o.HeadsOpenFrom s) (h : o.eof - s < rounds) :
    ∃ e, o.statementEndWithin? rounds s = some e := by
  induction rounds generalizing s with
  | zero => exact absurd h (Nat.not_lt_zero _)
  | succ rounds ih =>
    -- What starts behind `s` has a round less to go.
    have later : ∀ {i}, s < o.eof → s < i → ∃ e, o.statementEndWithin? rounds i = some e := fun hs hi =>
      ih (hopen.mono (Nat.le_of_lt hi)) (by omega)
    have hround := o.round_statementEndWithin? rounds s
    generalize o.statementEndWithin? (rounds + 1) s = found at hround
    cases hround with
    | done => exact ⟨_, rfl⟩
    | headed inside behind => exact later inside behind
    | branches inside behind =>
      obtain ⟨m, hm⟩ := later inside behind
      have hmin := (endsStatement_of_within? hm).min_le_of_heads (hopen.mono (Nat.le_of_lt behind))
      rw [hm]
      show ∃ e, (if o.isKeyword (m + 1) "else" then o.statementEndWithin? rounds (m + 2) else some m) = some e
      split
      · rw [lastReal] at hmin
        exact later inside (by omega)
      · exact ⟨_, rfl⟩
    | loop inside =>
      obtain ⟨m, hm⟩ := later inside (Nat.lt_succ_self s)
      rw [hm]
      show ∃ e, (if o.isKeyword (m + 1) "while" then _ else some m) = some e
      split
      · split <;> exact ⟨_, rfl⟩
      · exact ⟨_, rfl⟩

/-- **The end of a statement is found, and not in front of where it starts.** -/
theorem exists_statementEnd? {s : Nat} (hopen : o.HeadsOpenFrom s) :
    ∃ e, o.statementEnd? s = some e ∧ min s o.lastReal ≤ e := by
  have := o.eof_le
  obtain ⟨e, he⟩ := @exists_statementEndWithin? o (o.document.size + 1) s hopen (by omega)
  exact ⟨e, he, (endsStatement_of_within? he).min_le_of_heads hopen⟩

/-! ### Chains of branches -/

/-- Behind a branch that ends at token `i` there is an `else`, and its branch is found to end at token `j`. -/
def NextBranch (o : Outline) (i j : Nat) : Prop := o.isKeyword (i + 1) "else" = true ∧
  ∃ first, o.statementEnd? first = some j ∧
    (first = i + 2 ∨ o.isKeyword (i + 2) "if" = true ∧ ∃ close, o.closing? (i + 3) = some close ∧ first = close + 1)

/-- **A branch ends behind the one before it.** -/
theorem NextBranch.lt {i j : Nat} (h : o.NextBranch i j) (hopen : o.HeadsOpenFrom (i + 2)) : i < j := by
  obtain ⟨helse, first, hj, hfirst⟩ := h
  have hi := lt_eof_of_isKeyword helse
  have hlt : i + 2 ≤ first := by
    rcases hfirst with rfl | ⟨-, close, hclose, rfl⟩
    · exact Nat.le_refl _
    · have := Brackets.lt_of_closing? hclose
      omega
  have hmin := (endsStatement_of_within? hj).min_le_of_heads (hopen.mono hlt)
  rw [lastReal] at hmin
  omega

/-- A chain that has a round for each token behind its first branch ends. -/
theorem exists_elseChainWithin? {rounds last : Nat} (hopen : o.HeadsOpenFrom (last + 1)) (h : o.eof - last < rounds) :
    ∃ r, o.elseChainWithin? rounds last = some r := by
  induction rounds generalizing last with
  | zero => exact absurd h (Nat.not_lt_zero _)
  | succ rounds ih =>
    rw [elseChainWithin?]
    split
    · rename_i helse
      have hlast := lt_eof_of_isKeyword helse
      split
      · rename_i hif
        split
        · exact ⟨_, rfl⟩
        · rename_i close hclose
          have hclose' := Brackets.lt_of_closing? hclose
          obtain ⟨next, hnext, -⟩ := exists_statementEnd? (hopen.mono (show last + 1 ≤ close + 1 by omega))
          have hlt : last < next := NextBranch.lt ⟨helse, close + 1, hnext,
            .inr ⟨(Bool.and_eq_true_iff.1 hif).1, close, hclose, rfl⟩⟩ (hopen.mono (Nat.le_succ _))
          rw [hnext]
          exact ih (hopen.mono (by omega)) (by omega)
      · obtain ⟨next, hnext, -⟩ := exists_statementEnd? (hopen.mono (Nat.le_succ (last + 1)))
        rw [hnext]
        exact ⟨_, rfl⟩
    · exact ⟨_, rfl⟩

/-! ### Trees -/

/-- Where no head leads back, every search ends. -/
theorem not_searchesForever (hopen : o.HeadsOpenFrom 0) : ¬ o.SearchesForever := by
  have hends : ∀ s, ¬ o.Endless s := fun s h => by
    obtain ⟨e, he⟩ := exists_statementEndWithin? (hopen.mono (Nat.zero_le s)) (Nat.lt_succ_self _)
    rw [h] at he
    cases he
  rintro (⟨p, -, h⟩ | ⟨p, -, h | ⟨e, -, h⟩⟩)
  · exact hends _ h
  · exact hends _ h
  · obtain ⟨r, hr⟩ := exists_elseChainWithin? (hopen.mono (Nat.zero_le (e + 1))) (Nat.lt_succ_self _)
    rw [h] at hr
    cases hr

theorem exists_tree? (hopen : o.HeadsOpenFrom 0) : ∃ t, o.tree? = some t :=
  Option.ne_none_iff_exists'.1 fun h => not_searchesForever hopen (tree?_eq_none_iff.1 h)

/-! ### Ends of statements are words -/

variable {d : Document}

/-- What has a text is not the token that closes a document, unless that has one. -/
theorem lt_endOfFile_of_wordAt (hend : d.wordAt d.endOfFile = "") {i : Nat} (h : d.wordAt i ≠ "") :
    i < d.endOfFile := by
  have hlt : i < d.size := lt_size_of_isAt (o := ofDocument d) (beq_iff_eq.2 rfl) h
  have hne : i ≠ d.endOfFile := fun hi => h (hi ▸ hend)
  have := d.size_eq
  omega

theorem wordAt_of_partner? {i j : Nat} (h : (ofDocument d).partner? i = some j) : d.wordAt j ≠ "" := by
  intro hj
  rcases (matched d).1 i j h with ⟨-, hclose⟩ | ⟨-, hclose⟩
  · rw [hj] at hclose
    cases hclose
  · rw [hj] at hclose
    exact absurd (isOpener_of_closes hclose) (by decide)

/-- **A statement that starts with a word ends with one.** -/
theorem EndsStatement.lt_endOfFile (hend : d.wordAt d.endOfFile = "") {s e : Nat} (hs : s < d.endOfFile)
    (h : (ofDocument d).EndsStatement s e) : e < d.endOfFile := by
  refine h.lt_of ?_ (Nat.le_refl _) (fun i j hp => lt_endOfFile_of_wordAt hend (wordAt_of_partner? hp)) fun i hat => ?_
  · show d.endOfFile - 1 < d.endOfFile
    omega
  · refine lt_endOfFile_of_wordAt hend ?_
    rw [show d.wordAt i = ";" from beq_iff_eq.1 hat]
    decide

/-- **Looking for the end of a statement goes forwards.** A statement ends with a word, or with the token that closes
the document if that has a text. Where no `try` and no `while` has right behind it a bracket that closes one, the end is
found and not in front of the statement, every branch of a chain ends behind the one before it, and the document has a
tree. -/
theorem search_of_headsOpen (d : Document) :
    (∀ s < d.endOfFile, ∀ e, (ofDocument d).statementEnd? s = some e →
      e < d.endOfFile ∨ e = d.endOfFile ∧ d.wordAt d.endOfFile ≠ "") ∧
    (∀ s < d.endOfFile, (ofDocument d).HeadsOpenFrom s → ∃ e, (ofDocument d).statementEnd? s = some e ∧ s ≤ e) ∧
    (∀ i j, (ofDocument d).NextBranch i j → (ofDocument d).HeadsOpenFrom (i + 2) → i < j) ∧
    ((ofDocument d).HeadsOpenFrom 0 → ∃ t, SyntaxTree.ofDocument? d = some t) := by
  refine ⟨fun s hs e he => ?_, fun s hs hopen => ?_, fun i j h hopen => h.lt hopen, exists_tree?⟩
  · have hends := endsStatement_of_within? he
    by_cases hend : d.wordAt d.endOfFile = ""
    · exact .inl (hends.lt_endOfFile hend hs)
    · have hlt : e < d.size := hends.lt (sound_ofDocument d)
      have := d.size_eq
      exact (Nat.lt_or_ge e d.endOfFile).imp_right fun hge => ⟨by omega, hend⟩
  · obtain ⟨e, he, hmin⟩ := exists_statementEnd? hopen
    have hlast : (ofDocument d).lastReal = d.endOfFile - 1 := rfl
    exact ⟨e, he, by omega⟩

/-- A `try` with a handler, and an `else` branch that is a loop. -/
theorem search_of_headsOpen_branches : ∃ d,
    Document.ofSource "if (a) try \x7b \x7d catch \x7b \x7d else do b; while (c);" = .ok d ∧
    (ofDocument d).HeadsOpenFrom 0 ∧ (ofDocument d).statementEnd? 4 = some 9 ∧
    (∃ e, (ofDocument d).NextBranch 9 e ∧ 9 < e) ∧ (∃ e, (ofDocument d).statementEnd? 0 = some e) ∧
    ∃ t, SyntaxTree.ofDocument? d = some t := by
  obtain ⟨d, hd, h⟩ := exists_ok_of_any
    (e := Document.ofSource "if (a) try \x7b \x7d catch \x7b \x7d else do b; while (c);") (p := fun d =>
      decide d.HeadsOpen && (ofDocument d).statementEnd? 4 == some 9 && (ofDocument d).isKeyword 10 "else" &&
        (ofDocument d).statementEnd? 11 == some 18 && d.endOfFile == 19) (by decide +kernel)
  simp only [Bool.and_eq_true, decide_eq_true_eq, beq_iff_eq] at h
  obtain ⟨⟨⟨⟨hopen, htry⟩, helse⟩, hloop⟩, heof⟩ := h
  have hopen := (sound_ofDocument d).headsOpenFrom hopen 0
  obtain ⟨-, hends, hbranch, htree⟩ := search_of_headsOpen d
  obtain ⟨e, he, -⟩ := hends 0 (by omega) hopen
  have hnext : (ofDocument d).NextBranch 9 18 := ⟨helse, 11, hloop, .inl rfl⟩
  exact ⟨d, hd, hopen, htry, ⟨18, hnext, hbranch 9 18 hnext (hopen.mono (Nat.zero_le _))⟩, ⟨e, he⟩, htree hopen⟩

-- The brace behind the `try` leads back to the brace in front, so the `try` is taken to end there.
example : (Document.ofSource "\x7b if (x) try \x7d").toOption.any
    (fun d => (ofDocument d).statementEnd? 5 == some 0) = true := by decide +kernel

-- From there the chain of branches comes to the same `else` again.
example : (Document.ofSource "\x7b else if (b) try \x7d").toOption.any
    (fun d => (SyntaxTree.ofDocument? d).isNone) = true := by decide +kernel

end Outline

end LayoutLint
