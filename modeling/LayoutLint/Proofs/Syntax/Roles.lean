import LayoutLint.Proofs.Syntax.Conditions
import LayoutLint.Proofs.Syntax.TokenIds
/-!
# Roles — what the scan for operators keeps

Of what the scan for operators keeps, the bracket depth and the depth of the pattern that is being read are told by the
words alone (`OperatorScan.mode_step`). So they are the same for the same words, wherever these stand, and they say
which `or` is one between patterns (`Outline.role_or`).
-/
namespace LayoutLint

namespace Document

variable {d : Document}

/-- The word of a token. -/
def wordOf (d : Document) (i : Nat) : Word := ⟨d.kindAt i, d.wordAt i⟩

/-- The words of a document. -/
def words (d : Document) : List Word := (List.range d.endOfFile).map d.wordOf

/-- Do the words stand in the document from token `i` on? -/
def Spells (d : Document) (i : Nat) (ws : List Word) : Prop := (List.range' i ws.length).map d.wordOf = ws

theorem spells_nil (i : Nat) : d.Spells i [] := rfl

theorem spells_cons {i : Nat} {w : Word} {ws : List Word} :
    d.Spells i (w :: ws) ↔ d.wordOf i = w ∧ d.Spells (i + 1) ws := by
  rw [Spells, List.length_cons, List.range'_succ, List.map_cons, List.cons.injEq, Spells]

theorem spells_append {i : Nat} {vs : List Word} : ∀ {us : List Word},
    d.Spells i (us ++ vs) ↔ d.Spells i us ∧ d.Spells (i + us.length) vs := by
  intro us
  induction us generalizing i with
  | nil => exact (and_iff_right (spells_nil i)).symm
  | cons u us ih =>
    rw [List.cons_append, spells_cons, spells_cons, ih, List.length_cons, and_assoc, Nat.add_assoc, Nat.add_comm 1]

theorem spells_words (d : Document) : d.Spells 0 d.words := by
  rw [Spells, words, List.length_map, List.length_range, List.range_eq_range']

theorem Spells.mem {i k : Nat} {ws : List Word} (h : d.Spells i ws) (hik : i ≤ k) (hk : k < i + ws.length) :
    d.wordOf k ∈ ws := by
  rw [← h, List.mem_map]
  exact ⟨k, List.mem_range'_1.2 ⟨hik, hk⟩, rfl⟩

theorem Spells.balanced {i : Nat} {ws : List Word} (h : d.Spells i ws) (hws : Balanced Word.text ws) :
    Balanced d.wordAt (List.range' i ws.length) := by
  refine hws.congr ?_
  conv_rhs => rw [← h]
  rw [List.map_map]
  rfl

/-- What stands outside of brackets among tokens are the words that stand there. -/
theorem Spells.outside {i : Nat} {ws : List Word} (h : d.Spells i ws) (depth : Nat) :
    (LayoutLint.outside d.wordAt depth (List.range' i ws.length)).map d.wordOf =
      LayoutLint.outside Word.text depth ws := by
  have hmap := outside_map (f := d.wordAt) (g := Word.text) (m := d.wordOf) (fun _ => rfl)
    (List.range' i ws.length) depth
  rw [show (List.range' i ws.length).map d.wordOf = ws from h] at hmap
  exact hmap.symm

theorem Spells.outside_cons {i : Nat} {w : Word} {ws : List Word} (h : d.Spells i (w :: ws))
    (hw : isOpener w.text = false ∧ openerOf w.text = none) :
    LayoutLint.outside d.wordAt 0 (List.range' i (w :: ws).length) =
      i :: LayoutLint.outside d.wordAt 0 (List.range' (i + 1) ws.length) := by
  have htext : w.text = d.wordAt i := congrArg Word.text (spells_cons.1 h).1.symm
  rw [htext] at hw
  rw [List.length_cons, List.range'_succ, outside_word hw.1 hw.2, if_neg (Nat.lt_irrefl 0)]

theorem Spells.outside_append {i : Nat} {us vs : List Word} (h : d.Spells i (us ++ vs)) (hus : Balanced Word.text us) :
    LayoutLint.outside d.wordAt 0 (List.range' i (us ++ vs).length) =
      LayoutLint.outside d.wordAt 0 (List.range' i us.length) ++
        LayoutLint.outside d.wordAt 0 (List.range' (i + us.length) vs.length) := by
  rw [List.length_append, ← List.range'_append_1, ((spells_append.1 h).1.balanced hus).outside_append]

end Document

namespace Outline

theorem isOneOf_openers (o : Outline) (i : Nat) : o.isOneOf i ["(", "[", "\x7b"] = isOpener (o.word i) :=
  (isOpener_eq _).symm

theorem isOneOf_closers (o : Outline) (i : Nat) : o.isOneOf i [")", "]", "\x7d"] = (openerOf (o.word i)).isSome :=
  (isSome_openerOf _).symm

theorem isAt_of_isAt {o : Outline} {i : Nat} {text word : String} (h : o.isAt i text = true) (hne : text ≠ word) :
    o.isAt i word = false := by
  rw [isAt, show o.word i = text from beq_iff_eq.1 h]
  exact beq_eq_false_iff_ne.2 hne

theorem isKeyword_of_isAt {o : Outline} {i : Nat} {text word : String} (h : o.isAt i text = true) (hne : text ≠ word) :
    o.isKeyword i word = false := by
  rw [isKeyword, Document.isKeywordAt, show o.document.wordAt i = text from beq_iff_eq.1 h, beq_eq_false_iff_ne.2 hne,
    Bool.and_false]

end Outline

namespace OperatorScan

variable {o : Outline} {scopes : Scopes} {declared : TokenSet}

/-- The bracket depth, and the depth of the pattern that is being read. -/
def mode (s : OperatorScan) : Nat × Option Nat := (s.depth, s.pattern)

/-- The texts that end a pattern at their depth. -/
def patternEnds : List String := [",", "=>", "&&", "||", ":"]

/-- What a word does to the depth and the pattern. -/
def readMode (m : Nat × Option Nat) (w : Word) : Nat × Option Nat :=
  if isOpener w.text then (m.1 + 1, m.2)
  else if (openerOf w.text).isSome then (m.1 - 1, if m.2.any (m.1 ≤ ·) then none else m.2)
  else if w.text == ";" then (m.1, none)
  else if w.kind == .keyword && w.text == "is" || w.kind == .keyword && w.text == "case" then (m.1, some m.1)
  else if patternEnds.contains w.text && m.2.any (m.1 ≤ ·) then (m.1, none)
  else m

theorem mode_readOperator (s : OperatorScan) (i : Nat) : (readOperator o scopes declared s i).mode =
    if o.isKeyword i "is" || o.isKeyword i "case" then (s.depth, some s.depth) else s.mode := by
  have early : ∀ text ∈ ["?", ":", ".", "??"], o.isAt i text = true →
      (o.isKeyword i "is" || o.isKeyword i "case") = false := by
    intro text htext h
    rw [Outline.isKeyword_of_isAt h (by rintro rfl; revert htext; decide),
      Outline.isKeyword_of_isAt h (by rintro rfl; revert htext; decide)]
    rfl
  unfold readOperator
  split
  · rename_i h
    rw [early "?" (by decide) h, if_neg Bool.false_ne_true]
    repeat' split
    all_goals rfl
  split
  · rename_i h
    rw [early ":" (by decide) (Bool.and_eq_true_iff.1 h).1]
    rfl
  split
  · rename_i h
    rw [early "." (by decide) h]
    rfl
  split
  · rename_i h
    rw [early "??" (by decide) h]
    rfl
  split
  · rename_i h
    rw [h]
    rfl
  split
  · rename_i h
    rw [h, Bool.or_true]
    rfl
  · rename_i his hcase
    rw [Bool.eq_false_iff.2 his, Bool.eq_false_iff.2 hcase, Bool.or_false, if_neg Bool.false_ne_true]
    repeat' split
    all_goals rfl

/-- **The words alone tell the depth and the pattern.** -/
theorem mode_step (s : OperatorScan) (i : Nat) :
    (step o scopes declared s i).mode = readMode s.mode (o.document.wordOf i) := by
  unfold step readMode patternEnds
  rw [Outline.isOneOf_openers, Outline.isOneOf_closers]
  by_cases hopens : isOpener (o.word i) = true
  · rw [if_pos hopens, if_pos (show isOpener (o.document.wordOf i).text = true from hopens)]
    rfl
  rw [if_neg hopens, if_neg (show ¬ isOpener (o.document.wordOf i).text = true from hopens)]
  by_cases hcloses : (openerOf (o.word i)).isSome = true
  · rw [if_pos hcloses, if_pos (show (openerOf (o.document.wordOf i).text).isSome = true from hcloses)]
    rfl
  rw [if_neg hcloses, if_neg (show ¬ (openerOf (o.document.wordOf i).text).isSome = true from hcloses)]
  by_cases hends : o.isAt i ";" = true
  · rw [if_pos hends, if_pos (show ((o.document.wordOf i).text == ";") = true from hends)]
    rfl
  rw [if_neg hends, if_neg (show ¬ ((o.document.wordOf i).text == ";") = true from hends), mode_readOperator]
  show (if (o.isKeyword i "is" || o.isKeyword i "case") = true then _ else _) =
    if (o.isKeyword i "is" || o.isKeyword i "case") = true then _ else
      if (o.isOneOf i [",", "=>", "&&", "||", ":"] && s.leavesPattern) = true then (s.depth, none) else s.mode
  split
  · split <;> rfl
  · split <;> rfl

/-! ### Roles -/

theorem dotRole_ne_conditionalQuestion (inDirective : Bool) (before : Option OperatorRole) (i : Nat) :
    o.dotRole inDirective before i ≠ some .conditionalQuestion := by
  unfold Outline.dotRole
  repeat' split
  all_goals exact fun h => nomatch h

variable (scopes declared) in
/-- Reading a token gives a role to it and to no other; only a question mark asks for a condition. -/
theorem roles_readOperator (s : OperatorScan) (i : Nat) :
    ∃ role, (readOperator o scopes declared s i).roles = s.roles.push role ∧
      (role = some .conditionalQuestion → o.isAt i "?" = true) := by
  unfold readOperator
  split
  · rename_i h
    repeat' split
    all_goals exact ⟨_, rfl, fun _ => h⟩
  split
  · exact ⟨_, rfl, fun h => nomatch h⟩
  split
  · exact ⟨_, rfl, fun h => absurd h (dotRole_ne_conditionalQuestion _ _ _)⟩
  · repeat' split
    all_goals exact ⟨_, rfl, fun h => nomatch h⟩

variable (scopes declared) in
theorem roles_step (s : OperatorScan) (i : Nat) : ∃ role, (step o scopes declared s i).roles = s.roles.push role ∧
    (role = some .conditionalQuestion → o.isAt i "?" = true) := by
  unfold step
  split
  · exact ⟨_, rfl, fun h => nomatch h⟩
  split
  · exact ⟨_, rfl, fun h => nomatch h⟩
  split
  · exact ⟨_, rfl, fun h => nomatch h⟩
  · obtain ⟨role, hrole, hquestion⟩ := roles_readOperator scopes declared
      (if o.isOneOf i [",", "=>", "&&", "||", ":"] && s.leavesPattern then { s with pattern := none } else s) i
    refine ⟨role, hrole.trans ?_, hquestion⟩
    split <;> rfl

/-- What is read has its role for good. -/
theorem getD_roles_foldl {k : Nat} : ∀ (ids : List Nat) (s : OperatorScan), k < s.roles.size →
    (ids.foldl (step o scopes declared) s).roles.getD k none = s.roles.getD k none
  | [], _, _ => rfl
  | i :: ids, s, hk => by
    obtain ⟨role, hrole, -⟩ := roles_step scopes declared s i
    rw [List.foldl_cons, getD_roles_foldl ids _ (by rw [hrole, Array.size_push]; omega), hrole]
    simp only [Array.getD_eq_getD_getElem?, Array.getElem?_push, if_neg (Nat.ne_of_lt hk)]

end OperatorScan

namespace Outline

open OperatorScan (readMode)

variable {o : Outline} {scopes : Scopes} {declared : TokenSet}

/-- The scan in front of token `i`. -/
def scannedTo (o : Outline) (scopes : Scopes) (declared : TokenSet) (i : Nat) : OperatorScan :=
  (List.range i).foldl (OperatorScan.step o scopes declared) {}

theorem scannedTo_succ (i : Nat) : o.scannedTo scopes declared (i + 1) =
    OperatorScan.step o scopes declared (o.scannedTo scopes declared i) i := by
  rw [scannedTo, scannedTo, List.range_succ, List.foldl_append]
  rfl

theorem size_scannedTo (i : Nat) : (o.scannedTo scopes declared i).roles.size = i := by
  induction i with
  | zero => rfl
  | succ i ih => rw [scannedTo_succ, size_roles_step, ih]

/-- The role of a token is the one that it is given when it is read. -/
theorem getD_operatorRoles {i : Nat} (hi : i < o.eof) {role : Option OperatorRole}
    (hrole : (OperatorScan.step o scopes declared (o.scannedTo scopes declared i) i).roles =
      (o.scannedTo scopes declared i).roles.push role) :
    (o.operatorRoles scopes declared).getD i none = role := by
  have hids : o.ids = List.range (i + 1) ++ List.range' (i + 1) (o.eof - (i + 1)) := by
    have hall := List.range'_append_1 (s := 0) (m := i + 1) (n := o.eof - (i + 1))
    rw [Nat.zero_add] at hall
    rw [ids, List.range_eq_range', List.range_eq_range', hall]
    congr 1
    omega
  have hsize : i < (o.scannedTo scopes declared (i + 1)).roles.size := by
    rw [size_scannedTo]
    exact Nat.lt_succ_self i
  rw [operatorRoles, hids, List.foldl_append]
  refine (OperatorScan.getD_roles_foldl _ _ hsize).trans ?_
  rw [scannedTo_succ, hrole, Array.getD_eq_getD_getElem?, Array.getElem?_push, if_pos (size_scannedTo i).symm]
  rfl

/-- Only a question mark asks for a condition. -/
theorem isAt_of_conditionalQuestion {i : Nat} (hi : i < o.eof)
    (h : (o.operatorRoles scopes declared).getD i none = some .conditionalQuestion) : o.isAt i "?" = true := by
  obtain ⟨role, hrole, hquestion⟩ := OperatorScan.roles_step scopes declared (o.scannedTo scopes declared i) i
  exact hquestion ((getD_operatorRoles hi hrole).symm.trans h)

/-- **An `or` is one between patterns** where a pattern is being read and an operand or a type ends in front. -/
theorem role_or {i : Nat} (hi : i < o.eof) (hpos : 0 < i) (hor : o.document.wordOf i = .contextual "or") :
    (o.operatorRoles scopes declared).getD i none =
      if (o.scannedTo scopes declared i).pattern.any (· ≤ (o.scannedTo scopes declared i).depth) &&
          (o.isOperandEnd (i - 1) || o.isPredefined (i - 1)) then some .pattern else none := by
  have hword : o.document.wordAt i = "or" := congrArg Word.text hor
  have hkind : o.document.kindAt i = .identifier := congrArg Word.kind hor
  generalize hs : o.scannedTo scopes declared i = s
  apply getD_operatorRoles hi
  rw [hs]
  have hat : ∀ text, ("or" == text) = false → ¬ o.isAt i text = true := fun text htext h => by
    rw [isAt, word, hword, htext] at h
    cases h
  have hone : ∀ texts, texts.contains "or" = false → ¬ o.isOneOf i texts = true := fun texts htexts h => by
    rw [isOneOf, Document.isOneOf, hword, htexts] at h
    cases h
  have hkey : ∀ text, ¬ o.isKeyword i text = true := fun text h => by
    rw [isKeyword, Document.isKeywordAt, hkind] at h
    cases h
  have hpattern : (o.isOneOf i ["and", "or"] && o.isIdentifier i) = true := by
    rw [isOneOf, Document.isOneOf, hword, isIdentifier, kind, hkind]
    rfl
  rw [OperatorScan.step, if_neg (hone _ (by decide)), if_neg (hone _ (by decide)), if_neg (hat _ (by decide))]
  have hstay : ¬ (o.isOneOf i [",", "=>", "&&", "||", ":"] && s.leavesPattern) = true := fun h =>
    hone _ (by decide) (Bool.and_eq_true_iff.1 h).1
  rw [if_neg hstay, OperatorScan.readOperator, if_neg (hat _ (by decide)),
    if_neg (fun h => hat _ (by decide) (Bool.and_eq_true_iff.1 h).1), if_neg (hat _ (by decide)),
    if_neg (hat _ (by decide)), if_neg (hkey _), if_neg (hkey _), hpattern, Bool.true_and]
  have hbinary : ¬ (o.isOneOf i binaryOperators && !o.isTypeArgBracket i && decide (0 < i) && o.isOperandEnd (i - 1)) =
      true := fun h => by
    simp only [Bool.and_eq_true] at h
    exact hone _ (by decide) h.1.1.1
  rw [if_neg hbinary, decide_eq_true hpos, Bool.and_true]
  split <;> rfl

variable (scopes declared) in
theorem mode_scannedTo {ws : List Word} : ∀ {i : Nat}, o.document.Spells i ws →
    (o.scannedTo scopes declared (i + ws.length)).mode = ws.foldl readMode (o.scannedTo scopes declared i).mode := by
  induction ws with
  | nil => exact fun _ => rfl
  | cons w ws ih =>
    intro i h
    obtain ⟨hw, hws⟩ := Document.spells_cons.1 h
    rw [List.length_cons, Nat.add_comm ws.length, ← Nat.add_assoc, ih hws, scannedTo_succ, OperatorScan.mode_step, hw,
      List.foldl_cons]

/-! ### Patterns -/

theorem readMode_plain {w : Word} (h : w.Plain) (m : Nat × Option Nat) : readMode m w = m := by
  have hmark : ∀ {text : String}, text ∈ Word.marks → ¬ (w.text == text) = true := fun htext heq =>
    h.text (beq_iff_eq.1 heq ▸ htext)
  have hhead : ∀ {text : String}, text ∈ Word.heads → (w.kind == .keyword && w.text == text) = false := by
    intro text htext
    rw [Bool.eq_false_iff]
    intro heq
    obtain ⟨hkind, heq⟩ := Bool.and_eq_true_iff.1 heq
    exact h.keyword (beq_iff_eq.1 hkind) (beq_iff_eq.1 heq ▸ htext)
  have hend : OperatorScan.patternEnds.contains w.text = false := by
    rw [List.contains_eq_mem, decide_eq_false_iff_not]
    exact fun hmem => h.text ((by decide : ∀ t ∈ OperatorScan.patternEnds, t ∈ Word.marks) _ hmem)
  rw [readMode, h.noBracket.1, h.noBracket.2, if_neg Bool.false_ne_true, Option.isSome_none, if_neg Bool.false_ne_true,
    if_neg (hmark (by decide)), hhead (by decide), hhead (by decide), Bool.or_false, if_neg Bool.false_ne_true, hend,
    Bool.false_and, if_neg Bool.false_ne_true]

theorem readMode_comma (depth : Nat) (p : Option Nat) :
    readMode (depth, p) (.sign ",") = (depth, if p.any (depth ≤ ·) then none else p) := by
  show (if p.any (depth ≤ ·) = true then (depth, none) else (depth, p)) = _
  split <;> rfl

/-- **A pattern is read on to its end**, unless a comma stands in it outside of brackets. -/
theorem readMode_of_balanced {ws : List Word} (h : Balanced Word.text ws) :
    (∀ w ∈ ws, w.Plain ∨ w ∈ Pattern.marks) → ∀ (depth : Nat) (p : Option Nat), (∀ d ∈ p, d ≤ depth) →
      ws.foldl readMode (depth, p) =
        (depth, if p.any (depth ≤ ·) && (outside Word.text 0 ws).contains (.sign ",") then none else p) := by
  induction h with
  | nil =>
    intro _ depth p _
    simp [outside]
  | @word w ws opens closes _ ih =>
    intro hws depth p hp
    obtain ⟨hw, hrest⟩ := List.forall_mem_cons.1 hws
    rw [outside_word opens closes, if_neg (Nat.lt_irrefl 0), List.foldl_cons, List.contains_cons]
    by_cases hcomma : w = .sign ","
    · rw [hcomma, readMode_comma, beq_self_eq_true, Bool.true_or, Bool.and_true]
      by_cases hany : p.any (depth ≤ ·) = true
      · rw [if_pos hany, ih hrest depth none (fun d hd => absurd hd (Option.not_mem_none d))]
        rfl
      · rw [if_neg hany, ih hrest depth p hp, Bool.eq_false_iff.2 hany]
        rfl
    · have hstay : readMode (depth, p) w = (depth, p) := by
        rcases hw with hw | hw
        · exact readMode_plain hw _
        · simp only [Pattern.marks, List.mem_cons, List.not_mem_nil, or_false] at hw
          rcases hw with rfl | rfl | rfl | rfl | hw | rfl
          · cases opens
          · cases closes
          · cases opens
          · cases closes
          · exact absurd hw hcomma
          · rfl
      have hne : (Word.sign "," == w) = false := beq_eq_false_iff_ne.2 (Ne.symm hcomma)
      rw [hstay, ih hrest depth p hp, hne, Bool.false_or]
  | @block a c as bs opens closes inner rest ihInner ihRest =>
    intro hws depth p hp
    obtain ⟨-, hws⟩ := List.forall_mem_cons.1 hws
    obtain ⟨hinner, hws⟩ := List.forall_mem_append.1 hws
    obtain ⟨-, hrest⟩ := List.forall_mem_cons.1 hws
    -- In brackets the scan is deeper than the pattern started.
    have hno : p.any (depth + 1 ≤ ·) = false := by
      cases p with
      | none => rfl
      | some d => exact decide_eq_false (Nat.not_le_of_lt (Nat.lt_succ_of_le (hp d rfl)))
    have hopen : readMode (depth, p) a = (depth + 1, p) := by rw [readMode, if_pos opens]
    have hclose : readMode (depth + 1, p) c = (depth, p) := by
      rw [readMode, isOpener_of_openerOf closes, closes]
      show (depth, if p.any (depth + 1 ≤ ·) = true then none else p) = _
      rw [hno]
      rfl
    rw [List.foldl_cons, List.foldl_append, List.foldl_cons, hopen,
      ihInner hinner _ p (fun d hd => Nat.le_succ_of_le (hp d hd)), hno, Bool.false_and, if_neg Bool.false_ne_true,
      hclose, ihRest hrest depth p hp]
    rw [outside_opens opens, inner.outside_append, inner.outside_succ, outside_closes closes]
    rfl

end Outline

end LayoutLint
