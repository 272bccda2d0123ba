import LayoutLint.Proofs.Syntax.Roles
/-!
# Alternatives — which conditions are read as alternatives

The scan of a condition looks at the tokens outside of brackets (`ConditionScan.flag_foldl`), where a `||` stands in
alternatives only, a `&&` in conjunctions only, and an `or` in alternative patterns only. An `or` has a role where the
pattern in front of it is read on (`role_or_behind`), so the scan tells an alternative pattern by any one of its `or`s
(`any_or_pattern`), and all in all it agrees with the tree (`isDisjunction_eq_isAlternative`).
-/
namespace LayoutLint

namespace Outline.ConditionScan

variable {o : Outline} {roles : Array (Option OperatorRole)}

theorem step_outside {s : ConditionScan} {i : Nat} (opens : isOpener (o.word i) = false)
    (closes : openerOf (o.word i) = none) : step o roles s i =
      if 0 < s.depth then s
      else if o.isAt i "||" then { s with disjunct := true }
      else if o.isAt i "&&" then { s with conjunct := true }
      else if o.isAt i "??" || o.isOneOf i Outline.assignments then { s with looser := true }
      else
        match roles.getD i none with
        | some .conditionalQuestion => { s with looser := true }
        | some .pattern => { s with patternOr := s.patternOr || o.isAt i "or" }
        | _ => s := by
  rw [step, Outline.isOneOf_openers, Outline.isOneOf_closers, opens, closes]
  rfl

/-- **What a scan notices** are the tokens outside of brackets that it would notice alone. -/
theorem flag_foldl (flag : ConditionScan → Bool) {notices : Nat → Bool}
    (hdepth : ∀ (s : ConditionScan) (depth : Nat), flag { s with depth } = flag s)
    (hstep : ∀ (s : ConditionScan) (i : Nat), s.depth = 0 → isOpener (o.word i) = false → openerOf (o.word i) = none →
      flag (step o roles s i) = (flag s || notices i) ∧ (step o roles s i).depth = 0) :
    ∀ (ids : List Nat) (s : ConditionScan),
      flag (ids.foldl (step o roles) s) = (flag s || (outside o.word s.depth ids).any notices)
  | [], s => (Bool.or_false _).symm
  | i :: ids, s => by
    rw [List.foldl_cons, flag_foldl flag hdepth hstep ids]
    cases hopens : isOpener (o.word i) with
    | true =>
      have hs : step o roles s i = { s with depth := s.depth + 1 } := by
        rw [step, Outline.isOneOf_openers, if_pos hopens]
      rw [hs, hdepth, outside_opens hopens]
    | false =>
      cases hcloses : openerOf (o.word i) with
      | some opener =>
        have hs : step o roles s i = { s with depth := s.depth - 1 } := by
          rw [step, Outline.isOneOf_openers, Outline.isOneOf_closers, hopens, hcloses]
          rfl
        rw [hs, hdepth, outside_closes hcloses]
      | none =>
        rw [outside_word hopens hcloses]
        by_cases hs : 0 < s.depth
        · rw [step_outside hopens hcloses, if_pos hs, if_pos hs]
        · have hzero : s.depth = 0 := Nat.eq_zero_of_not_pos hs
          obtain ⟨hflag, hkeep⟩ := hstep s i hzero hopens hcloses
          rw [hflag, hkeep, if_neg hs, hzero, List.any_cons, Bool.or_assoc]

theorem depth_step_outside {s : ConditionScan} {i : Nat} (hs : s.depth = 0) (opens : isOpener (o.word i) = false)
    (closes : openerOf (o.word i) = none) : (step o roles s i).depth = 0 := by
  rw [step_outside opens closes]
  repeat' split
  all_goals exact hs

theorem disjunct_foldl (ids : List Nat) (s : ConditionScan) : (ids.foldl (step o roles) s).disjunct =
    (s.disjunct || (outside o.word s.depth ids).any (o.isAt · "||")) := by
  refine flag_foldl disjunct (fun _ _ => rfl)
    (fun s i hs opens closes => ⟨?_, depth_step_outside hs opens closes⟩) ids s
  rw [step_outside opens closes, hs, if_neg (Nat.lt_irrefl 0)]
  split
  · rename_i h
    rw [h, Bool.or_true]
  · rename_i h
    rw [Bool.eq_false_iff.2 h, Bool.or_false]
    repeat' split
    all_goals rfl

theorem conjunct_foldl (ids : List Nat) (s : ConditionScan) : (ids.foldl (step o roles) s).conjunct =
    (s.conjunct || (outside o.word s.depth ids).any (o.isAt · "&&")) := by
  refine flag_foldl conjunct (fun _ _ => rfl)
    (fun s i hs opens closes => ⟨?_, depth_step_outside hs opens closes⟩) ids s
  rw [step_outside opens closes, hs, if_neg (Nat.lt_irrefl 0)]
  split
  · rename_i h
    rw [isAt_of_isAt h (by decide), Bool.or_false]
  split
  · rename_i h
    rw [h, Bool.or_true]
  · rename_i h
    rw [Bool.eq_false_iff.2 h, Bool.or_false]
    repeat' split
    all_goals rfl

/-- Is the token an `or` between patterns? -/
def isPatternOr (o : Outline) (roles : Array (Option OperatorRole)) (i : Nat) : Bool :=
  o.isAt i "or" && roles.getD i none == some .pattern

theorem patternOr_foldl (ids : List Nat) (s : ConditionScan) : (ids.foldl (step o roles) s).patternOr =
    (s.patternOr || (outside o.word s.depth ids).any (isPatternOr o roles)) := by
  refine flag_foldl patternOr (fun _ _ => rfl)
    (fun s i hs opens closes => ⟨?_, depth_step_outside hs opens closes⟩) ids s
  rw [step_outside opens closes, hs, if_neg (Nat.lt_irrefl 0), isPatternOr]
  split
  · rename_i h
    rw [isAt_of_isAt h (by decide), Bool.false_and, Bool.or_false]
  split
  · rename_i h
    rw [isAt_of_isAt h (by decide), Bool.false_and, Bool.or_false]
  split
  · rename_i h
    have hor : o.isAt i "or" = false := by
      rw [Bool.eq_false_iff]
      intro hor
      rw [isAt_of_isAt hor (by decide), Bool.false_or, isOneOf, Document.isOneOf,
        show o.document.wordAt i = "or" from beq_iff_eq.1 hor] at h
      exact absurd h (by decide)
    rw [hor, Bool.false_and, Bool.or_false]
  · split
    · rename_i h
      rw [h]
      simp
    · rename_i h
      rw [h]
      simp
    · rename_i h
      have hne : (roles.getD i none == some OperatorRole.pattern) = false := beq_eq_false_iff_ne.2 h
      rw [hne, Bool.and_false, Bool.or_false]

/-- Does the token bind less than a `||`? -/
def isLooser (o : Outline) (roles : Array (Option OperatorRole)) (i : Nat) : Bool :=
  !o.isAt i "||" && !o.isAt i "&&" &&
    (o.isAt i "??" || o.isOneOf i Outline.assignments || roles.getD i none == some .conditionalQuestion)

theorem looser_foldl (ids : List Nat) (s : ConditionScan) : (ids.foldl (step o roles) s).looser =
    (s.looser || (outside o.word s.depth ids).any (isLooser o roles)) := by
  refine flag_foldl looser (fun _ _ => rfl)
    (fun s i hs opens closes => ⟨?_, depth_step_outside hs opens closes⟩) ids s
  rw [step_outside opens closes, hs, if_neg (Nat.lt_irrefl 0), isLooser]
  split
  · rename_i h
    simp [h]
  split
  · rename_i h
    simp [h]
  split
  · rename_i hdis hcon h
    simp [hdis, hcon, h]
  · rename_i hdis hcon h
    rw [Bool.eq_false_iff.2 h, Bool.eq_false_iff.2 hdis, Bool.eq_false_iff.2 hcon]
    split
    · rename_i hrole
      simp [hrole]
    · rename_i hrole
      simp [hrole]
    · rename_i hrole _
      have hne : (roles.getD i none == some OperatorRole.conditionalQuestion) = false := beq_eq_false_iff_ne.2 hrole
      rw [hne]
      simp

end Outline.ConditionScan

/-! ### Conditions of a document -/

/-- What is asked of the words outside of brackets is asked of the tokens that stand there. -/
theorem Document.Spells.any_outside {d : Document} {i : Nat} {ws : List Word} (h : d.Spells i ws) (p : Word → Bool) :
    (LayoutLint.outside d.wordAt 0 (List.range' i ws.length)).any (fun k => p (d.wordOf k)) =
      (LayoutLint.outside Word.text 0 ws).any p := by
  rw [← h.outside 0, List.any_map]
  rfl

namespace Condition

/-- The operators that tell alternatives are told by their texts. -/
theorem eq_of_text {w v : Word} (hw : w.Plain ∨ w ∈ marks) (hv : v ∈ connectives) (h : w.text = v.text) : w = v := by
  rcases hw with hw | hw
  · exact absurd ((by decide : ∀ v ∈ connectives, v.text ∈ Word.marks) v hv) (h ▸ hw.text)
  · exact (by decide : ∀ w ∈ marks, ∀ v ∈ connectives, w.text = v.text → w = v) w hw v hv h

theorem any_outside_iff {ws : List Word} (hws : ∀ w ∈ ws, w.Plain ∨ w ∈ marks) {v : Word} (hv : v ∈ connectives) :
    (outside Word.text 0 ws).any (·.text == v.text) = true ↔ v ∈ outside Word.text 0 ws := by
  rw [List.any_eq_true]
  constructor
  · rintro ⟨w, hw, h⟩
    exact eq_of_text (hws w (outside_subset _ _ _ hw)) hv (beq_iff_eq.1 h) ▸ hw
  · exact fun h => ⟨v, h, beq_self_eq_true _⟩

end Condition

namespace Outline

open Word (sign contextual)

variable {o : Outline} {scopes : Scopes} {declared : TokenSet}

/-- A condition without parentheses around all of it is judged by what stands outside of its brackets. -/
theorem isDisjunction_eq {roles : Array (Option OperatorRole)} {k n : Nat}
    (h : o.unwrapParens (k + 1) (k + 1 + n) = (k + 1, k + 1 + n)) {ids : List Nat}
    (hids : outside o.word 0 (List.range' (k + 1) n) = ids) :
    o.isDisjunction roles k (k + 1 + n) =
      (!ids.any (ConditionScan.isLooser o roles) && (ids.any (o.isAt · "||") ||
        (ids.any (ConditionScan.isPatternOr o roles) && !ids.any (o.isAt · "&&")))) := by
  unfold isDisjunction
  rw [h]
  dsimp only
  rw [Nat.add_sub_cancel_left, ConditionScan.looser_foldl, ConditionScan.disjunct_foldl, ConditionScan.patternOr_foldl,
    ConditionScan.conjunct_foldl, hids]
  simp only [Bool.false_or]

/-! ### Patterns -/

/-- What ends a pattern is an operand or a type, but for type arguments and properties. -/
theorem isOperandEnd_of_endsIn {k : Nat} (h : Pattern.EndsIn (o.document.wordOf k)) :
    (o.isOperandEnd k || o.isPredefined k) = !([sign ">", sign "\x7d"].contains (o.document.wordOf k)) := by
  generalize hw : o.document.wordOf k = w at h
  have hkind : o.document.kindAt k = w.kind := congrArg Word.kind hw
  have hword : o.document.wordAt k = w.text := congrArg Word.text hw
  simp only [isOperandEnd, isName, Document.isNameAt, isLiteral, isInstanceWord, isKeyword, Document.isKeywordAt,
    isOneOf, Document.isOneOf, isPredefined, Document.isPredefined, kind, hkind, hword]
  clear hw hkind hword
  cases h with
  | name n =>
    have hfree : contextualWords.contains n.text = false := by
      rw [List.contains_eq_mem, decide_eq_false_iff_not]
      exact n.free
    rw [show n.word.text = n.text from rfl, hfree]
    rfl
  | constant c =>
    cases c with
    | keyword text known =>
      rw [show (Constant.keyword text known).word = .keyword text from rfl]
      revert text
      decide
    | _ => rfl
  | predefined text known =>
    revert text
    decide
  | paren => rfl
  | arguments => rfl
  | properties => rfl

/-- **An `or` behind a pattern that is being read** is one between patterns when that pattern is read on. -/
theorem role_or_behind {p : Pattern} {i depth : Nat}
    (hmode : (o.scannedTo scopes declared i).mode = (depth, some depth))
    (h : o.document.Spells i (p.words 0 ++ [contextual "or"])) (heof : i + (p.words 0).length < o.eof) :
    (o.operatorRoles scopes declared).getD (i + (p.words 0).length) none =
      if p.isReadOn then some .pattern else none := by
  obtain ⟨hp, hor⟩ := Document.spells_append.1 h
  have hread := mode_scannedTo scopes declared hp
  have hdepth : ∀ d ∈ some depth, d ≤ depth := fun d hd => Nat.le_of_eq (Option.some.inj hd).symm
  rw [hmode, readMode_of_balanced (p.balanced 0) (p.plain_or_mark 0) depth _ hdepth, OperatorScan.mode,
    Prod.mk.injEq] at hread
  obtain ⟨front, w, hwords, hw⟩ := p.ends 0
  rw [hwords] at hp
  have hlast : o.document.wordOf (i + front.length) = w := (Document.spells_cons.1 (Document.spells_append.1 hp).2).1
  have hlen : (p.words 0).length = front.length + 1 := by rw [hwords, List.length_append, List.length_singleton]
  rw [role_or heof (by omega) (Document.spells_cons.1 hor).1, hread.1, hread.2,
    show i + (p.words 0).length - 1 = i + front.length by omega, isOperandEnd_of_endsIn (hlast ▸ hw), hlast,
    Pattern.isReadOn, hwords, List.getLast?_concat]
  have hsome : [some (sign ">"), some (sign "\x7d")].contains (some w) = [sign ">", sign "\x7d"].contains w := by
    simp only [List.contains_cons, List.contains_nil, Option.some_beq_some]
  rw [hsome]
  cases (outside Word.text 0 (front ++ [w])).contains (sign ",") <;> simp

/-- No `or` is one between patterns where no `or` stands outside of brackets. -/
theorem any_or_eq_false {roles : Array (Option OperatorRole)} {i : Nat} {ws : List Word} (h : o.document.Spells i ws)
    (hws : ∀ w ∈ ws, w.Plain ∨ w ∈ Condition.marks) (hor : contextual "or" ∉ outside Word.text 0 ws) :
    (outside o.word 0 (List.range' i ws.length)).any (ConditionScan.isPatternOr o roles) = false := by
  have hnone := h.any_outside (·.text == (contextual "or").text)
  rw [Bool.eq_false_iff.2 (mt (Condition.any_outside_iff hws (by decide)).1 hor),
    List.any_eq_false] at hnone
  exact List.any_eq_false.2 fun k hk hor => hnone k hk (Bool.and_eq_true_iff.1 hor).1

/-- **A pattern is an alternative** where some `or` of its own is read as one between patterns. -/
theorem any_or_pattern {i depth : Nat} (hmode : (o.scannedTo scopes declared i).mode = (depth, some depth))
    (p : Pattern) : o.document.Spells i (p.words 0) → i + (p.words 0).length ≤ o.eof →
      (outside o.word 0 (List.range' i (p.words 0).length)).any
        (ConditionScan.isPatternOr o (o.operatorRoles scopes declared)) = p.isAlternative := by
  have hmarks : ∀ (p : Pattern) (place : Nat), ∀ w ∈ p.words place, w.Plain ∨ w ∈ Condition.marks :=
    fun p place w hw => (p.plain_or_mark place w hw).imp_right (List.mem_append_right _)
  -- What is no `or` is written the same where it stands behind one.
  have hother : ∀ p : Pattern, p.words 0 = p.words 1 → o.document.Spells i (p.words 0) →
      (outside o.word 0 (List.range' i (p.words 0).length)).any
        (ConditionScan.isPatternOr o (o.operatorRoles scopes declared)) = false := by
    intro p hp h
    rw [hp] at h ⊢
    exact any_or_eq_false h (hmarks p 1) (p.or_not_outside Nat.one_pos)
  induction p with
  | or p q ihp _ =>
    intro h heof
    have hwords : (p.or q).words 0 = p.words 0 ++ contextual "or" :: q.words 1 := rfl
    rw [hwords] at h heof ⊢
    rw [List.length_append, List.length_cons] at heof
    obtain ⟨hp, hrest⟩ := Document.spells_append.1 h
    obtain ⟨hor, hq⟩ := Document.spells_cons.1 hrest
    have hrole := role_or_behind hmode
      (Document.spells_append.2 ⟨hp, Document.spells_cons.2 ⟨hor, Document.spells_nil _⟩⟩) (by omega)
    have hids : outside o.word 0 (List.range' i (p.words 0 ++ contextual "or" :: q.words 1).length) =
        outside o.word 0 (List.range' i (p.words 0).length) ++ (i + (p.words 0).length) ::
          outside o.word 0 (List.range' (i + (p.words 0).length + 1) (q.words 1).length) :=
      (h.outside_append (p.balanced 0)).trans (congrArg _ (hrest.outside_cons ⟨rfl, rfl⟩))
    have hat : o.isAt (i + (p.words 0).length) "or" = true := beq_iff_eq.2 (congrArg Word.text hor)
    rw [hids, List.any_append, List.any_cons, ihp hp (by omega),
      any_or_eq_false hq (hmarks q 1) (q.or_not_outside Nat.one_pos), ConditionScan.isPatternOr, hat, hrole,
      Bool.or_false, Pattern.isAlternative]
    cases p.isReadOn <;> rfl
  | constant c => exact fun h _ => hother _ rfl h
  | type t => exact fun h _ => hother _ rfl h
  | relational r c => exact fun h _ => hother _ rfl h
  | empty => exact fun h _ => hother _ rfl h
  | paren p => exact fun h _ => hother _ rfl h
  | not p => exact fun h _ => hother _ rfl h
  | and p q => exact fun h _ => hother _ rfl h

/-! ### Conditions -/

/-- Nothing in a condition binds less than a `||`. -/
theorem any_isLooser {c : Condition} {i : Nat} (h : o.document.Spells i (c.words 0))
    (heof : i + (c.words 0).length ≤ o.eof) :
    (outside o.word 0 (List.range' i (c.words 0).length)).any
      (ConditionScan.isLooser o (o.operatorRoles scopes declared)) = false := by
  refine List.any_eq_false.2 fun k hk hlooser => ?_
  obtain ⟨hik, hki⟩ := List.mem_range'_1.1 (outside_subset _ _ _ hk)
  have htext : o.word k ∈ "?" :: "??" :: assignments := by
    obtain ⟨-, hlooser⟩ := Bool.and_eq_true_iff.1 hlooser
    rcases (Bool.or_eq_true_iff.1 hlooser).imp_left Bool.or_eq_true_iff.1 with (hat | hone) | hrole
    · exact List.mem_cons_of_mem _ (List.mem_cons.2 (.inl (beq_iff_eq.1 hat)))
    · exact List.mem_cons_of_mem _ (List.mem_cons_of_mem _ (List.contains_iff_mem.1 hone))
    · exact List.mem_cons.2 (.inl (beq_iff_eq.1 (isAt_of_conditionalQuestion (by omega) (beq_iff_eq.1 hrole))))
  rcases c.plain_or_mark 0 _ (h.mem hik hki) with hw | hw
  · exact hw.text ((by decide : ∀ t ∈ "?" :: "??" :: assignments, t ∈ Word.marks) _ htext)
  · exact (by decide : ∀ w ∈ Condition.marks, w.text ∉ "?" :: "??" :: assignments) _ hw htext

/-- A condition is judged by the operators outside of its brackets. -/
theorem isDisjunction_of_spells {c : Condition} {k : Nat} (h : o.document.Spells (k + 1) (c.words 0))
    (heof : k + 1 + (c.words 0).length ≤ o.eof)
    (hunwrap : o.unwrapParens (k + 1) (k + 1 + (c.words 0).length) = (k + 1, k + 1 + (c.words 0).length)) :
    o.isDisjunction (o.operatorRoles scopes declared) k (k + 1 + (c.words 0).length) =
      (decide (sign "||" ∈ outside Word.text 0 (c.words 0)) ||
        ((outside o.word 0 (List.range' (k + 1) (c.words 0).length)).any
            (ConditionScan.isPatternOr o (o.operatorRoles scopes declared)) &&
          !decide (sign "&&" ∈ outside Word.text 0 (c.words 0)))) := by
  have hflag : ∀ v ∈ Condition.connectives,
      (outside o.word 0 (List.range' (k + 1) (c.words 0).length)).any (o.isAt · v.text) =
        decide (v ∈ outside Word.text 0 (c.words 0)) := by
    intro v hv
    rw [Bool.eq_iff_iff, decide_eq_true_iff, ← Condition.any_outside_iff (c.plain_or_mark 0) hv, ← h.any_outside]
    rfl
  rw [isDisjunction_eq hunwrap rfl, any_isLooser h heof, ← hflag (sign "||") (by decide),
    ← hflag (sign "&&") (by decide)]
  rfl

variable {d : Document}

/-- A condition with a word behind balanced brackets has no parentheses around all of it. -/
theorem unwrapParens_between {front back : List Word} {w : Word} {i : Nat} (h : d.Spells i (front ++ w :: back))
    (hfront : Balanced Word.text front) (hw : w.text ≠ "(") (heof : i + (front ++ w :: back).length ≤ d.endOfFile) :
    (ofDocument d).unwrapParens i (i + (front ++ w :: back).length) = (i, i + (front ++ w :: back).length) := by
  obtain ⟨hspells, hrest⟩ := Document.spells_append.1 h
  have hsize := d.size_eq
  have hlen : (front ++ w :: back).length = front.length + (back.length + 1) := by
    rw [List.length_append, List.length_cons]
  rw [unwrapParens, if_neg]
  intro hparens
  simp only [Bool.and_eq_true, beq_iff_eq] at hparens
  obtain ⟨⟨-, hopens⟩, hclosing⟩ := hparens
  have hopens : d.wordAt i = "(" := beq_iff_eq.1 hopens
  cases front with
  | nil => exact hw ((congrArg Word.text (Document.spells_cons.1 hrest).1).symm.trans hopens)
  | cons v front =>
    obtain ⟨j, -, hj, hpartner⟩ := partner_of_balanced (hspells.balanced hfront) rfl (by omega) i (Nat.le_refl i)
      (by simp) (.inl (by rw [hopens]; rfl))
    rw [Option.some.inj (hpartner.symm.trans (partner?_of_closing? hclosing))] at hj
    omega

/-- A condition whose words outside of brackets tell nothing is no alternative. -/
theorem isDisjunction_of_plain {c : Condition} {k : Nat} {w : Word} {ws : List Word} (hwords : c.words 0 = w :: ws)
    (hw : w.Plain) (hplain : ∀ w ∈ outside Word.text 0 (c.words 0), w.Plain) (h : d.Spells (k + 1) (c.words 0))
    (heof : k + 1 + (c.words 0).length ≤ d.endOfFile) :
    (ofDocument d).isDisjunction ((ofDocument d).operatorRoles scopes declared) k (k + 1 + (c.words 0).length) =
      false := by
  have hunwrap := unwrapParens_between (show d.Spells (k + 1) ([] ++ w :: ws) from hwords ▸ h) .nil (hw.ne (by decide))
    (hwords ▸ heof)
  rw [isDisjunction_of_spells h heof (by rw [hwords]; exact hunwrap),
    any_or_eq_false h (c.plain_or_mark 0) fun hor => absurd (hplain _ hor) (by decide),
    decide_eq_false fun hor => absurd (hplain _ hor) (by decide)]
  rfl

/-- Parentheses around all of a condition change nothing. -/
theorem isDisjunction_paren {roles : Array (Option OperatorRole)} {ws : List Word} {k : Nat}
    (h : d.Spells (k + 1) (Word.inParens ws)) (hws : Balanced Word.text ws) (hsize : k + ws.length + 3 ≤ d.size) :
    (ofDocument d).isDisjunction roles k (k + 1 + (Word.inParens ws).length) =
      (ofDocument d).isDisjunction roles (k + 1) (k + 1 + 1 + ws.length) := by
  obtain ⟨hopens, hrest⟩ := Document.spells_cons.1 h
  obtain ⟨hinner, hcloses⟩ := Document.spells_append.1 hrest
  have hopens : d.wordAt (k + 1) = "(" := congrArg Word.text hopens
  have hcloses : d.wordAt (k + 1 + 1 + ws.length) = ")" := congrArg Word.text (Document.spells_cons.1 hcloses).1
  have hclosing : (ofDocument d).closing? (k + 1) = some (k + 1 + 1 + ws.length) :=
    closing?_of_balanced (by omega) (by rw [hopens]; rfl) (by rw [hopens, hcloses]; rfl) (hinner.balanced hws)
  have hlen : k + 1 + (Word.inParens ws).length = k + 1 + 1 + ws.length + 1 := by
    rw [Word.length_inParens]
    omega
  have hat : (ofDocument d).isAt (k + 1) "(" = true := beq_iff_eq.2 hopens
  rw [isDisjunction, hlen, unwrapParens, hat, hclosing, Nat.add_sub_cancel, beq_self_eq_true, decide_eq_true (by omega),
    Bool.and_true, Bool.and_true, if_pos rfl]
  rfl

/-- A test is judged by its pattern. -/
theorem isDisjunction_is {n : Name} {p : Pattern} {k : Nat} (h : d.Spells (k + 1) ((Condition.is n p).words 0))
    (heof : k + 1 + ((Condition.is n p).words 0).length ≤ d.endOfFile) :
    (ofDocument d).isDisjunction ((ofDocument d).operatorRoles scopes declared) k
      (k + 1 + ((Condition.is n p).words 0).length) = p.isAlternative := by
  have hwords : (Condition.is n p).words 0 = n.word :: .keyword "is" :: p.words 0 := rfl
  have hdisjunct : sign "||" ∉ outside Word.text 0 ((Condition.is n p).words 0) :=
    fun h => (Condition.is n p).disjunct_not_outside Nat.one_pos h
  have hconjunct : sign "&&" ∉ outside Word.text 0 ((Condition.is n p).words 0) := by
    intro hand
    rcases List.mem_cons.1 (outside_subset _ _ _ hand) with hand | hand
    · cases hand
    rcases p.plain_or_mark 0 _ ((List.mem_cons.1 hand).resolve_left (by decide)) with hand | hand
    · exact absurd hand (by decide)
    · exact absurd hand (by decide)
  have hunwrap := unwrapParens_between (show d.Spells (k + 1) ([] ++ n.word :: .keyword "is" :: p.words 0) from h) .nil
    (n.plain.ne (by decide)) heof
  rw [isDisjunction_of_spells h heof hunwrap, decide_eq_false hdisjunct, decide_eq_false hconjunct, Bool.false_or,
    Bool.not_false, Bool.and_true]
  rw [hwords] at h heof ⊢
  obtain ⟨hname, hrest⟩ := Document.spells_cons.1 h
  obtain ⟨his, hp⟩ := Document.spells_cons.1 hrest
  have hmode := mode_scannedTo scopes declared (o := ofDocument d)
    (Document.spells_cons.2 ⟨hname, Document.spells_cons.2 ⟨his, Document.spells_nil _⟩⟩)
  rw [List.foldl_cons, readMode_plain n.plain] at hmode
  have hids : outside (ofDocument d).word 0 (List.range' (k + 1) (n.word :: .keyword "is" :: p.words 0).length) =
      (k + 1) :: (k + 1 + 1) :: outside (ofDocument d).word 0 (List.range' (k + 1 + 1 + 1) (p.words 0).length) :=
    (h.outside_cons n.plain.noBracket).trans (congrArg _ (hrest.outside_cons ⟨rfl, rfl⟩))
  have hnone : ∀ {i : Nat} {w : Word}, d.wordOf i = w → w.text ≠ "or" →
      ConditionScan.isPatternOr (ofDocument d) ((ofDocument d).operatorRoles scopes declared) i = false := by
    intro i w hw hne
    have hat : (ofDocument d).isAt i "or" = false := beq_eq_false_iff_ne.2 ((congrArg Word.text hw).trans_ne hne)
    rw [ConditionScan.isPatternOr, hat, Bool.false_and]
  have hstop : k + 1 + 1 + 1 + (p.words 0).length ≤ d.endOfFile := by
    rw [List.length_cons, List.length_cons] at heof
    omega
  rw [hids, List.any_cons, List.any_cons, hnone hname (n.plain.ne (by decide)), hnone his (by decide), Bool.false_or,
    Bool.false_or]
  exact any_or_pattern hmode p hp hstop

variable (scopes declared) in
/-- **The scan of a condition agrees with its tree.** -/
theorem isDisjunction_eq_isAlternative (c : Condition) : ∀ {k : Nat}, d.Spells (k + 1) (c.words 0) →
    k + 1 + (c.words 0).length ≤ d.endOfFile →
      (ofDocument d).isDisjunction ((ofDocument d).operatorRoles scopes declared) k (k + 1 + (c.words 0).length) =
        c.isAlternative := by
  have hsize := d.size_eq
  -- Only what stands in parentheses is gone into; an operator is told without looking at its operands.
  induction c with
  | name n =>
    exact fun h heof => isDisjunction_of_plain rfl n.plain
      (fun w hw => List.mem_singleton.1 (outside_subset _ _ _ hw) ▸ n.plain) h heof
  | constant c =>
    exact fun h heof => isDisjunction_of_plain rfl c.plain
      (fun w hw => List.mem_singleton.1 (outside_subset _ _ _ hw) ▸ c.plain) h heof
  | notName n =>
    intro k h heof
    refine isDisjunction_of_plain (w := sign "!") rfl (by decide) (fun w hw => ?_) h heof
    rcases List.mem_pair.1 (outside_subset _ _ _ hw) with rfl | rfl
    · decide
    · exact n.plain
  | notParen c =>
    intro k h heof
    refine isDisjunction_of_plain (w := sign "!") rfl (by decide) (fun w hw => ?_) h heof
    rw [Condition.words, outside_word rfl rfl, if_neg (Nat.lt_irrefl 0), Word.inParens,
      outside_block rfl rfl (c.balanced 0), List.mem_singleton] at hw
    rw [hw]
    decide
  | paren c ih =>
    intro k h heof
    have hlen : ((Condition.paren c).words 0).length = (c.words 0).length + 2 := Word.length_inParens _
    rw [hlen] at heof
    have hinner := (Document.spells_append.1 (Document.spells_cons.1 h).2).1
    exact (isDisjunction_paren h (c.balanced 0) (by omega)).trans (ih hinner (by omega))
  | and c e =>
    intro k h heof
    have hwords : (c.and e).words 0 = c.words 1 ++ sign "&&" :: e.words 2 := rfl
    have hdisjunct : sign "||" ∉ outside Word.text 0 ((c.and e).words 0) :=
      fun h => (c.and e).disjunct_not_outside Nat.one_pos h
    have hconjunct : sign "&&" ∈ outside Word.text 0 ((c.and e).words 0) := by
      rw [hwords, Word.outside_between (c.balanced 1) ⟨rfl, rfl⟩]
      exact List.mem_append_right _ (List.mem_cons_self ..)
    have hunwrap := unwrapParens_between (hwords ▸ h) (c.balanced 1) (by decide) (hwords ▸ heof)
    rw [isDisjunction_of_spells h heof hunwrap, decide_eq_false hdisjunct, decide_eq_true hconjunct, Bool.not_true,
      Bool.and_false]
    rfl
  | or c e =>
    intro k h heof
    have hwords : (c.or e).words 0 = c.words 0 ++ sign "||" :: e.words 1 := rfl
    have hdisjunct : sign "||" ∈ outside Word.text 0 ((c.or e).words 0) := by
      rw [hwords, Word.outside_between (c.balanced 0) ⟨rfl, rfl⟩]
      exact List.mem_append_right _ (List.mem_cons_self ..)
    have hunwrap := unwrapParens_between (hwords ▸ h) (c.balanced 0) (by decide) (hwords ▸ heof)
    rw [isDisjunction_of_spells h heof hunwrap, decide_eq_true hdisjunct, Bool.true_or]
    rfl
  | is n p => exact fun h heof => isDisjunction_is h heof

end Outline

end LayoutLint
