import LayoutLint.Proofs.Layout.Gaps
import LayoutLint.Proofs.Syntax.NodeGaps
/-!
# StatementEnds — what the end of a statement is

The end of a statement is looked for forwards and over matched brackets. A round of the search finds it, or goes on with
the statements that this one is made of (`Outline.Round`), so what is found is one of few things
(`Outline.EndsStatement`): where the last token is, where a bracket closes, or where what the statement ends with does.
So it is a token (`EndsStatement.lt`), and it is not in front of the statement (`EndsStatement.min_le_of_heads`), but
for one thing: the block after `try` and the condition after the `while` of a `do` statement are taken for granted, and
a closing bracket that stands there leads back to the bracket it closes (`Document.HeadsOpen`, and from some token on
`Outline.HeadsOpenFrom`).
-/
namespace LayoutLint

/-- No `try` and no `while` has a closing bracket right behind it. -/
def Document.HeadsOpen (d : Document) : Prop :=
  ∀ i < d.size, d.isKeywordAt i "try" = true ∨ d.isKeywordAt i "while" = true → openerOf (d.wordAt (i + 1)) = none

instance (d : Document) : Decidable d.HeadsOpen :=
  Nat.decidableBallLT d.size fun i _ =>
    d.isKeywordAt i "try" = true ∨ d.isKeywordAt i "while" = true → openerOf (d.wordAt (i + 1)) = none

namespace Outline

variable {o : Outline}

theorem lastReal_lt (o : Outline) : o.lastReal < o.document.size := by
  have := o.document.size_pos
  rw [lastReal, eof, Document.endOfFile]
  omega

/-! ### Looking forwards -/

theorem lt_of_walk {stops jumps : List String} {i j : Nat} (h : o.walk stops jumps i = .found j) :
    i ≤ j ∧ j < o.eof := by
  fun_induction walk o stops jumps i with
  | case1 i hi =>
    cases h
    exact ⟨Nat.le_refl _, hi⟩
  | case2 i hi _ _ close hclose ih =>
    have := Brackets.lt_of_closing? hclose
    have := ih h
    omega
  | case3 => cases h
  | case4 i hi _ _ ih =>
    have := ih h
    omega
  | case5 => cases h

/-- An expression ends in front of end-of-file, or with the last token. -/
theorem expressionEnd_lt_of {n : Nat} (hn : o.lastReal < n) (heof : o.eof ≤ n) (i : Nat) : o.expressionEnd i < n := by
  rw [expressionEnd]
  split
  · rename_i j hj
    have := lt_of_walk hj
    split
    · omega
    · split <;> omega
  · exact hn
  · exact hn

theorem eof_le (o : Outline) : o.eof ≤ o.document.size := by
  rw [eof, Document.endOfFile]
  omega

theorem expressionEnd_lt (o : Outline) (i : Nat) : o.expressionEnd i < o.document.size :=
  expressionEnd_lt_of o.lastReal_lt o.eof_le i

theorem min_le_expressionEnd (o : Outline) (i : Nat) : min i o.lastReal ≤ o.expressionEnd i := by
  rw [expressionEnd]
  split
  · rename_i j hj
    have := (lt_of_walk hj).1
    split
    · omega
    · split <;> omega
  · exact Nat.min_le_right _ _
  · exact Nat.min_le_right _ _

/-- Handlers end with a bracket, or with the block that they are of. -/
theorem handlersEnd?_lt {n : Nat} (hn : ∀ i j, o.partner? i = some j → j < n) {i j : Nat} (hi : i < n)
    (h : o.handlersEnd? i = some j) : j < n := by
  fun_induction handlersEnd? o i with
  | case1 => cases h
  | case2 i _ body _ _ close hclose ih => exact ih (hn _ _ (Option.filter_eq_some_iff.1 hclose).1) h
  | case3 => cases h
  | case4 =>
    cases h
    exact hi
  | case5 => exact hn _ _ (Option.filter_eq_some_iff.1 h).1
  | case6 =>
    cases h
    exact hi

theorem le_of_handlersEnd? {i j : Nat} (h : o.handlersEnd? i = some j) : i ≤ j := by
  fun_induction handlersEnd? o i with
  | case1 => cases h
  | case2 i _ body hbody _ close hclose ih =>
    have := le_of_catchBody? hbody
    have := Brackets.lt_of_closing? hclose
    have := ih h
    omega
  | case3 => cases h
  | case4 => exact Nat.le_of_eq (Option.some.inj h)
  | case5 =>
    have := Brackets.lt_of_closing? h
    omega
  | case6 => exact Nat.le_of_eq (Option.some.inj h)

/-- Only a closing bracket stands behind its partner. -/
theorem le_of_partner? {i j : Nat} (h : o.partner? i = some j) (hi : o.opening? i = none) : i ≤ j := by
  refine Nat.le_of_not_lt fun hj => ?_
  have hopening : o.opening? i = some j := Option.filter_eq_some_iff.2 ⟨h, decide_eq_true hj⟩
  rw [hi] at hopening
  cases hopening

/-- No `try` and no `while` from token `s` on has a bracket right behind it that closes one. -/
def HeadsOpenFrom (o : Outline) (s : Nat) : Prop :=
  ∀ k, s ≤ k → o.isKeyword k "try" = true ∨ o.isKeyword k "while" = true → o.opening? (k + 1) = none

theorem Sound.headsOpenFrom (ho : o.Sound) (hopen : o.document.HeadsOpen) (s : Nat) : o.HeadsOpenFrom s := by
  intro k _ hk
  have hlt : k < o.document.size := by
    rcases hk with hk | hk <;> exact lt_size_of_isAt (Bool.and_eq_true_iff.1 hk).2 (by decide)
  have hnone : openerOf (o.word (k + 1)) = none := hopen k hlt hk
  cases hb : o.opening? (k + 1) with
  | none => rfl
  | some b =>
    rw [ho.opening hb] at hnone
    cases hnone

theorem lt_eof_of_isKeyword {i : Nat} {word : String} (h : o.isKeyword i word = true) : i < o.eof := by
  have hk : o.document.kindAt i = .keyword := beq_iff_eq.1 (Bool.and_eq_true_iff.1 h).1
  have hlt := Document.lt_size_of_kindAt (d := o.document) (i := i) (by rw [hk]; decide)
  have hne : i ≠ o.document.endOfFile := by
    rintro rfl
    rw [o.document.kindAt_endOfFile] at hk
    cases hk
  rw [eof]
  rw [Document.endOfFile] at hne ⊢
  omega

namespace HeadsOpenFrom

variable {s : Nat}

theorem mono (h : o.HeadsOpenFrom s) {i : Nat} (hi : s ≤ i) : o.HeadsOpenFrom i := fun k hk =>
  h k (Nat.le_trans hi hk)

/-- Behind the end of a statement only what starts behind it counts. -/
theorem behind (h : o.HeadsOpenFrom s) {m : Nat} (hm : min s o.lastReal ≤ m) : o.HeadsOpenFrom (m + 1) := by
  intro k hk hword
  have hlt : k < o.eof := by rcases hword with hword | hword <;> exact lt_eof_of_isKeyword hword
  rw [lastReal] at hm
  exact h k (by omega) hword

/-- Behind a keyword that has no closing bracket behind it, brackets lead forwards. -/
theorem lt_of_head (h : o.HeadsOpenFrom s) {i j : Nat} (hs : s ≤ i)
    (hi : o.isKeyword i "try" = true ∨ o.isKeyword i "while" = true) (hp : o.partner? (i + 1) = some j) : i < j :=
  le_of_partner? hp (h i hs hi)

end HeadsOpenFrom

/-! ### The end of a statement -/

/-- Token `e` is where the statement that starts at token `s` is taken to end. -/
inductive EndsStatement (o : Outline) : (s e : Nat) → Prop
  /-- What it should go on with is not there. -/
  | last {s : Nat} : EndsStatement o s o.lastReal
  /-- It ends with something in brackets. -/
  | closed {s i c : Nat} (from_ : s ≤ i) (closing : o.closing? i = some c) : EndsStatement o s c
  /-- It ends with a statement. -/
  | within {s i e : Nat} (from_ : s ≤ i) (part : EndsStatement o i e) : EndsStatement o s e
  /-- It ends with an `else` branch. -/
  | branch {s m e : Nat} (first : EndsStatement o s m) (second : EndsStatement o (m + 2) e) : EndsStatement o s e
  /-- It ends with the condition after its body. -/
  | condition {s m c e : Nat} (body : EndsStatement o s m) (keyword : o.isKeyword (m + 1) "while" = true)
      (partner : o.partner? (m + 2) = some c) (closed : e = c ∨ o.isAt (c + 1) ";" = true ∧ e = c + 1) :
      EndsStatement o s e
  /-- It ends with the handlers of a block. -/
  | handlers {s b e : Nat} (keyword : o.isKeyword s "try" = true) (partner : o.partner? (s + 1) = some b)
      (handlers : o.handlersEnd? b = some e) : EndsStatement o s e
  /-- It is a simple one. -/
  | simple {s : Nat} : EndsStatement o s (o.expressionEnd s)

theorem EndsStatement.getD_closing {s i : Nat} (h : s ≤ i) : o.EndsStatement s ((o.closing? i).getD o.lastReal) := by
  cases hc : o.closing? i with
  | none => exact .last
  | some c => exact .closed h hc

/-- What a round of the search that starts at token `s` finds, when `search` is what the rounds after it find. -/
inductive Round (o : Outline) (search : Nat → Option Nat) (s : Nat) : Option Nat → Prop
  /-- No statement is looked for behind it. -/
  | done {e : Nat} (ends : o.EndsStatement s e) : Round o search s (some e)
  /-- It ends with the statement behind its head. -/
  | headed {i : Nat} (inside : s < o.eof) (behind : s < i) : Round o search s (search i)
  /-- An `if` goes on behind its first branch. -/
  | branches {i : Nat} (inside : s < o.eof) (behind : s < i) : Round o search s do
      let m ← search i
      if o.isKeyword (m + 1) "else" then search (m + 2) else return m
  /-- A `do` goes on behind its body. -/
  | loop (inside : s < o.eof) : Round o search s do
      let m ← search (s + 1)
      if o.isKeyword (m + 1) "while" then
        match o.partner? (m + 2) with
        | none => return o.lastReal
        | some close => return if o.isAt (close + 1) ";" then close + 1 else close
      else return m

/-- **What one round of the search does.** -/
theorem round_statementEndWithin? (o : Outline) (rounds s : Nat) :
    o.Round (o.statementEndWithin? rounds) s (o.statementEndWithin? (rounds + 1) s) := by
  rw [statementEndWithin?]
  split
  · exact .done .last
  rename_i heof
  have hs : s < o.eof := Nat.not_le.1 heof
  split
  · exact .done (.getD_closing (Nat.le_refl s))
  -- `if`
  split
  · split
    · exact .done .last
    · rename_i close hclose
      have hlt : s + 1 < close := by
        split at hclose
        · exact Brackets.lt_of_closing? hclose
        · cases hclose
      exact .branches hs (by omega)
  -- one statement behind a head
  split
  · split
    · exact .done .last
    · rename_i close hclose
      have := Brackets.lt_of_closing? hclose
      exact .headed hs (by omega)
  -- `do`
  split
  · exact .loop hs
  split
  · rename_i htry
    cases he : (o.partner? (s + 1)).bind o.handlersEnd? with
    | none => exact .done .last
    | some e =>
      obtain ⟨b, hb, he⟩ := Option.bind_eq_some_iff.1 he
      exact .done (.handlers htry hb he)
  -- `switch`
  split
  · split
    · exact .done .last
    · rename_i close hclose
      have := Brackets.lt_of_closing? hclose
      split
      · exact .done (.getD_closing (by omega))
      · exact .done (.closed (Nat.le_succ s) hclose)
  split
  · exact .done (.getD_closing (Nat.le_succ s))
  · exact .done .simple

/-- **What is found is the end of the statement.** -/
theorem endsStatement_of_within? {rounds s e : Nat} (h : o.statementEndWithin? rounds s = some e) :
    o.EndsStatement s e := by
  induction rounds generalizing s e with
  | zero => cases h
  | succ rounds ih =>
    have hround := o.round_statementEndWithin? rounds s
    generalize o.statementEndWithin? (rounds + 1) s = found at h hround
    cases hround with
    | done ends =>
      cases h
      exact ends
    | headed _ behind => exact .within (Nat.le_of_lt behind) (ih h)
    | branches _ behind =>
      obtain ⟨m, hm, h⟩ := Option.bind_eq_some_iff.1 h
      have hfirst : o.EndsStatement s m := .within (Nat.le_of_lt behind) (ih hm)
      split at h
      · exact .branch hfirst (ih h)
      · cases h
        exact hfirst
    | loop =>
      obtain ⟨m, hm, h⟩ := Option.bind_eq_some_iff.1 h
      have hbody : o.EndsStatement s m := .within (Nat.le_succ s) (ih hm)
      split at h
      · rename_i hwhile
        split at h
        · cases h
          exact .last
        · rename_i close hclose
          obtain rfl := Option.some.inj h
          refine .condition hbody hwhile hclose ?_
          split
          · rename_i hat
            exact .inr ⟨hat, rfl⟩
          · exact .inl rfl
      · cases h
        exact hbody

/-- **A chain of branches ends where the statement does that it is of.** -/
theorem EndsStatement.of_elseChainWithin? {rounds s last e : Nat} {endsWithElse : Bool} (hlast : o.EndsStatement s last)
    (h : o.elseChainWithin? rounds last = some (e, endsWithElse)) : o.EndsStatement s e := by
  induction rounds generalizing last with
  | zero => cases h
  | succ rounds ih =>
    rw [elseChainWithin?] at h
    split at h
    · split at h
      · split at h
        · cases h
          exact hlast
        · rename_i close hclose
          have := Brackets.lt_of_closing? hclose
          obtain ⟨next, hnext, h⟩ := Option.bind_eq_some_iff.1 h
          exact ih (hlast.branch (.within (by omega) (endsStatement_of_within? hnext))) h
      · obtain ⟨next, hnext, h⟩ := Option.map_eq_some_iff.1 h
        cases h
        exact hlast.branch (endsStatement_of_within? hnext)
    · cases h
      exact hlast

/-- The end of a statement is in front of `n` where partners, semicolons and the last token are. -/
theorem EndsStatement.lt_of {n : Nat} (hlast : o.lastReal < n) (heof : o.eof ≤ n)
    (hpartner : ∀ i j, o.partner? i = some j → j < n) (hsemicolon : ∀ i, o.isAt i ";" = true → i < n) {s e : Nat}
    (h : o.EndsStatement s e) : e < n := by
  induction h with
  | last => exact hlast
  | closed _ hclosing => exact hpartner _ _ (Option.filter_eq_some_iff.1 hclosing).1
  | within _ _ ih => exact ih
  | branch _ _ _ ih => exact ih
  | condition _ _ hp hclosed _ =>
    rcases hclosed with rfl | ⟨hat, rfl⟩
    · exact hpartner _ _ hp
    · exact hsemicolon _ hat
  | handlers _ hp hhandlers => exact handlersEnd?_lt hpartner (hpartner _ _ hp) hhandlers
  | simple => exact expressionEnd_lt_of hlast heof _

/-- **The end of a statement is a token.** -/
theorem EndsStatement.lt (ho : o.Sound) {s e : Nat} (h : o.EndsStatement s e) : e < o.document.size :=
  h.lt_of o.lastReal_lt o.eof_le (fun _ _ hp => (ho.partner hp).1) fun _ hat => lt_size_of_isAt hat (by decide)

/-- **A statement does not end in front of where it starts**, if the heads from there on are open. -/
theorem EndsStatement.min_le_of_heads {s e : Nat} (h : o.EndsStatement s e) (hopen : o.HeadsOpenFrom s) :
    min s o.lastReal ≤ e := by
  induction h with
  | last => exact Nat.min_le_right _ _
  | closed _ hclosing =>
    have := Brackets.lt_of_closing? hclosing
    omega
  | within hle _ ih =>
    have := ih (hopen.mono hle)
    omega
  | branch _ _ ihFirst ihSecond =>
    have hfirst := ihFirst hopen
    have := ihSecond ((hopen.behind hfirst).mono (Nat.le_succ _))
    omega
  | condition _ hkeyword hpartner hclosed ih =>
    have := ih hopen
    have := (hopen.behind this).lt_of_head (Nat.le_refl _) (.inr hkeyword) hpartner
    rcases hclosed with rfl | ⟨-, rfl⟩ <;> omega
  | handlers hkeyword hpartner hhandlers =>
    have := hopen.lt_of_head (Nat.le_refl _) (.inl hkeyword) hpartner
    have := le_of_handlersEnd? hhandlers
    omega
  | simple => exact o.min_le_expressionEnd _

theorem EndsStatement.min_le (ho : o.Sound) (hopen : o.document.HeadsOpen) {s e : Nat} (h : o.EndsStatement s e) :
    min s o.lastReal ≤ e :=
  h.min_le_of_heads (ho.headsOpenFrom hopen s)

/-! ### Statements with an extent -/

/-- A `using` statement goes up to where its body ends. -/
theorem mem_usingStatements? {nodes : List SyntaxNode} (h : o.usingStatements? = some nodes) {n : SyntaxNode}
    (hn : n ∈ nodes) : ∃ keyword body last kind, n = .usingStatement keyword ⟨body, last⟩ kind ∧ keyword < o.eof ∧
      body < o.eof ∧ o.EndsStatement body last := by
  obtain ⟨⟨keyword, body⟩, hhead, hx⟩ := exists_of_mem_right (mapM_eq_some_iff.1 h) n hn
  obtain ⟨last, hlast, hx⟩ := Option.bind_eq_some_iff.1 hx
  obtain rfl := Option.some.inj hx
  obtain ⟨i, hi, hhead⟩ := List.mem_filterMap.1 hhead
  split at hhead
  · obtain ⟨b, -, hhead⟩ := Option.bind_eq_some_iff.1 hhead
    split at hhead
    · rename_i hb
      cases hhead
      exact ⟨_, _, _, _, rfl, List.mem_range.1 hi, hb, endsStatement_of_within? hlast⟩
    · cases hhead
  · cases hhead

/-- An `if` statement goes up to where the last of its branches ends. -/
theorem mem_ifStatements? {roles : Array (Option OperatorRole)} {nodes : List SyntaxNode}
    (h : o.ifStatements? roles = some nodes) {n : SyntaxNode} (hn : n ∈ nodes) :
    ∃ keyword last disjunction bodyFirst endsWithElse,
      n = .ifStatement ⟨keyword, last⟩ disjunction bodyFirst endsWithElse ∧ keyword < o.eof ∧
      bodyFirst < o.document.size ∧ o.EndsStatement keyword last := by
  obtain ⟨⟨keyword, close⟩, hhead, hx⟩ := exists_of_mem_right (mapM_eq_some_iff.1 h) n hn
  obtain ⟨first, hfirst, hx⟩ := Option.bind_eq_some_iff.1 hx
  obtain ⟨⟨last, endsWithElse⟩, hlast, hx⟩ := Option.bind_eq_some_iff.1 hx
  obtain rfl := Option.some.inj hx
  obtain ⟨i, hi, hhead⟩ := List.mem_filterMap.1 hhead
  split at hhead
  · obtain ⟨c, hclose, hhead⟩ := Option.bind_eq_some_iff.1 hhead
    split at hhead
    · rename_i hc
      cases hhead
      have := Brackets.lt_of_closing? hclose
      have hends : o.EndsStatement keyword first := .within (by omega) (endsStatement_of_within? hfirst)
      refine ⟨_, _, _, _, _, rfl, List.mem_range.1 hi, ?_, hends.of_elseChainWithin? hlast⟩
      have := o.document.size_eq
      rw [eof] at hc
      split <;> omega
    · cases hhead
  · cases hhead

end Outline

end LayoutLint
