import LayoutLint.Proofs.Syntax.Balanced
import LayoutLint.Proofs.Syntax.Words
/-!
# Conditions — conditions and patterns as they are written

A condition is a tree, and its words are the tree written down: an operand that binds less than its place asks for
stands in parentheses, and more parentheses may stand around any part (`Condition.words`, `Pattern.words`). The brackets
of these words are balanced (`Condition.balanced`), and what stands outside of them are the operators of the operands
that need no parentheses.
-/
namespace LayoutLint

/-- A token without its trivia. -/
structure Word where
  kind : TokenKind
  text : String
  deriving DecidableEq, Repr

namespace Word

def sign (text : String) : Word := ⟨.punctuation, text⟩

def keyword (text : String) : Word := ⟨.keyword, text⟩

/-- A word that is a keyword in patterns only. -/
def contextual (text : String) : Word := ⟨.identifier, text⟩

/-- The words in parentheses. -/
def inParens (ws : List Word) : List Word := sign "(" :: (ws ++ [sign ")"])

theorem length_inParens (ws : List Word) : (inParens ws).length = ws.length + 2 := by
  rw [inParens, List.length_cons, List.length_append, List.length_singleton]

/-- The words, in parentheses if need be. -/
def parensIf (needed : Prop) [Decidable needed] (ws : List Word) : List Word := if needed then inParens ws else ws

/-- The texts that brackets, statements, conditions and patterns are told by. -/
def marks : List String :=
  ["(", ")", "[", "]", "\x7b", "\x7d", ";", ",", ":", "?", "??", "&&", "||", "or"] ++ Outline.assignments

/-- The keywords that tell patterns and statements. -/
def heads : List String := ["is", "case", "if", "using"]

/-- A word that tells nothing of brackets, statements, conditions and patterns. -/
structure Plain (w : Word) : Prop where
  text : w.text ∉ marks
  keyword : w.kind = .keyword → w.text ∉ heads

instance (w : Word) : Decidable w.Plain :=
  decidable_of_iff (w.text ∉ marks ∧ (w.kind = .keyword → w.text ∉ heads)) ⟨fun h => ⟨h.1, h.2⟩, fun h => ⟨h.1, h.2⟩⟩

end Word

/-! ### Names, constants and types -/

/-- An identifier that is no keyword anywhere. -/
structure Name where
  text : String
  starts : text.toList.head?.any (fun c => isWordStart c || c == '@') = true
  free : text ∉ contextualWords

/-- A literal. -/
inductive Constant where
  | number (text : String) (starts : text.toList.head?.any (fun c => c.isDigit || c == '.') = true)
  | string (text : String) (quoted : isQuotedWord text = true)
  | character (text : String) (quoted : isQuotedWord text = true)
  | keyword (text : String) (known : text ∈ ["true", "false", "null"])

mutual

inductive TypeName where
  | predefined (text : String) (known : text ∈ predefinedTypes)
  | named (name : Name)
  | generic (name : Name) (arguments : TypeArguments)

inductive TypeArguments where
  | one (t : TypeName)
  | more (t : TypeName) (rest : TypeArguments)

end

/-- A text that has what no mark has is no mark. -/
theorem Word.not_mark {p : String → Bool} (hp : ∀ m ∈ marks, p m = false) {text : String} (h : p text = true) :
    text ∉ marks := fun hm => by
  rw [hp _ hm] at h
  cases h

namespace Name

def word (n : Name) : Word := ⟨.identifier, n.text⟩

theorem plain (n : Name) : n.word.Plain := by
  refine ⟨Word.not_mark (p := fun t => t.toList.head?.any (fun c => isWordStart c || c == '@') && t != "or") (by decide)
    ?_, fun h => nomatch h⟩
  have hor : n.text ≠ "or" := fun h => n.free (by rw [h]; decide)
  exact Bool.and_eq_true_iff.2 ⟨n.starts, bne_iff_ne.2 hor⟩

end Name

namespace Constant

def word : Constant → Word
  | number text _ => ⟨.numericLiteral, text⟩
  | string text _ => ⟨.stringLiteral, text⟩
  | character text _ => ⟨.characterLiteral, text⟩
  | keyword text _ => .keyword text

theorem plain : ∀ c : Constant, c.word.Plain
  | number _ starts =>
    ⟨Word.not_mark (p := fun t => t.toList.head?.any (fun c => c.isDigit || c == '.')) (by decide) starts,
      fun h => nomatch h⟩
  | string _ quoted => ⟨Word.not_mark (by decide) quoted, fun h => nomatch h⟩
  | character _ quoted => ⟨Word.not_mark (by decide) quoted, fun h => nomatch h⟩
  | keyword text known => (by decide : ∀ t ∈ ["true", "false", "null"], (Word.keyword t).Plain) text known

end Constant

mutual

def TypeName.words : TypeName → List Word
  | .predefined text _ => [.keyword text]
  | .named name => [name.word]
  | .generic name arguments => name.word :: .sign "<" :: (arguments.words ++ [.sign ">"])

def TypeArguments.words : TypeArguments → List Word
  | .one t => t.words
  | .more t rest => t.words ++ .sign "," :: rest.words

end

/-! ### Patterns and conditions -/

/-- The operators of relational patterns. -/
inductive Relation where
  | less
  | lessOrEqual
  | greater
  | greaterOrEqual

def Relation.word : Relation → Word
  | less => .sign "<"
  | lessOrEqual => .sign "<="
  | greater => .sign ">"
  | greaterOrEqual => .sign ">="

inductive Pattern where
  | constant (c : Constant)
  | type (t : TypeName)
  | relational (r : Relation) (c : Constant)
  /-- The property pattern without properties. -/
  | empty
  | paren (p : Pattern)
  | not (p : Pattern)
  | and (p q : Pattern)
  | or (p q : Pattern)

/-- The words of a pattern at a place that asks for how much it binds: an `or` binds least, then `and` and `not`. -/
def Pattern.words : Pattern → (place : Nat) → List Word
  | constant c, _ => [c.word]
  | type t, _ => t.words
  | relational r c, _ => [r.word, c.word]
  | empty, _ => [.sign "\x7b", .sign "\x7d"]
  | paren p, _ => Word.inParens (p.words 0)
  | not p, place => Word.parensIf (2 < place) (.contextual "not" :: p.words 2)
  | and p q, place => Word.parensIf (1 < place) (p.words 1 ++ .contextual "and" :: q.words 2)
  | or p q, place => Word.parensIf (0 < place) (p.words 0 ++ .contextual "or" :: q.words 1)

inductive Condition where
  | name (n : Name)
  | constant (c : Constant)
  | paren (c : Condition)
  | notName (n : Name)
  | notParen (c : Condition)
  | and (c e : Condition)
  | or (c e : Condition)
  | is (n : Name) (p : Pattern)

/-- The words of a condition at a place that asks for how much it binds: a `||` binds least, then `&&` and a test. -/
def Condition.words : Condition → (place : Nat) → List Word
  | name n, _ => [n.word]
  | constant c, _ => [c.word]
  | paren c, _ => Word.inParens (c.words 0)
  | notName n, _ => [.sign "!", n.word]
  | notParen c, _ => .sign "!" :: Word.inParens (c.words 0)
  | and c e, place => Word.parensIf (1 < place) (c.words 1 ++ .sign "&&" :: e.words 2)
  | or c e, place => Word.parensIf (0 < place) (c.words 0 ++ .sign "||" :: e.words 1)
  | is n p, place => Word.parensIf (2 < place) (n.word :: .keyword "is" :: p.words 0)

/-! ### Words of types -/

mutual

/-- A type has no marks but the commas of type arguments. -/
theorem TypeName.plain_or_comma : ∀ t : TypeName, ∀ w ∈ t.words, w.Plain ∨ w = .sign ","
  | .predefined text known, w, hw => by
    obtain rfl := List.mem_singleton.1 hw
    exact .inl ((by decide : ∀ t ∈ predefinedTypes, (Word.keyword t).Plain) text known)
  | .named n, w, hw => by
    obtain rfl := List.mem_singleton.1 hw
    exact .inl n.plain
  | .generic n arguments, w, hw => by
    rw [TypeName.words, List.mem_cons, List.mem_cons, List.mem_append, List.mem_singleton] at hw
    rcases hw with rfl | rfl | hw | rfl
    · exact .inl n.plain
    · exact .inl (by decide)
    · exact arguments.plain_or_comma w hw
    · exact .inl (by decide)

theorem TypeArguments.plain_or_comma : ∀ ts : TypeArguments, ∀ w ∈ ts.words, w.Plain ∨ w = .sign ","
  | .one t, w, hw => t.plain_or_comma w hw
  | .more t rest, w, hw => by
    rw [TypeArguments.words, List.mem_append, List.mem_cons] at hw
    rcases hw with hw | rfl | hw
    · exact t.plain_or_comma w hw
    · exact .inr rfl
    · exact rest.plain_or_comma w hw

end

/-! ### Words of patterns and conditions -/

namespace Word

theorem Plain.ne {w : Word} (h : w.Plain) {text : String} (ht : text ∈ marks) : w.text ≠ text :=
  fun heq => h.text (heq ▸ ht)

theorem Plain.noBracket {w : Word} (h : w.Plain) : isOpener w.text = false ∧ openerOf w.text = none := by
  constructor
  · rw [isOpener_eq, List.contains_eq_mem, decide_eq_false_iff_not]
    exact fun hw => h.text ((by decide : ∀ t ∈ ["(", "[", "\x7b"], t ∈ marks) _ hw)
  · rw [← Option.not_isSome_iff_eq_none, isSome_openerOf, List.contains_iff_mem]
    exact fun hw => h.text ((by decide : ∀ t ∈ [")", "]", "\x7d"], t ∈ marks) _ hw)

theorem balanced_inParens {ws : List Word} (h : Balanced text ws) : Balanced text (inParens ws) :=
  .block rfl rfl h .nil

theorem balanced_parensIf {needed : Prop} [Decidable needed] {ws : List Word} (h : Balanced text ws) :
    Balanced text (parensIf needed ws) := by
  unfold parensIf
  split
  · exact balanced_inParens h
  · exact h

theorem forall_mem_inParens {P : Word → Prop} (hopens : P (sign "(")) (hcloses : P (sign ")")) {ws : List Word}
    (hws : ∀ w ∈ ws, P w) : ∀ w ∈ inParens ws, P w :=
  List.forall_mem_cons.2 ⟨hopens, List.forall_mem_append.2 ⟨hws, List.forall_mem_singleton.2 hcloses⟩⟩

theorem forall_mem_parensIf {P : Word → Prop} (hopens : P (sign "(")) (hcloses : P (sign ")")) {needed : Prop}
    [Decidable needed] {ws : List Word} (hws : ∀ w ∈ ws, P w) : ∀ w ∈ parensIf needed ws, P w := by
  unfold parensIf
  split
  · exact forall_mem_inParens hopens hcloses hws
  · exact hws

/-- Words outside of brackets are outside of no parentheses. -/
theorem mem_outside_parensIf {needed : Prop} [Decidable needed] {w : Word} {ws : List Word} (hws : Balanced text ws)
    (h : w ∈ outside text 0 (parensIf needed ws)) : ¬ needed ∧ w ∈ outside text 0 ws := by
  unfold parensIf at h
  split at h
  · rw [inParens, outside_block rfl rfl hws] at h
    cases h
  · rename_i hneeded
    exact ⟨hneeded, h⟩

/-- The words with a word between them that is no bracket: what is outside of brackets. -/
theorem outside_between {ws : List Word} {w : Word} (hws : Balanced text ws)
    (hw : isOpener w.text = false ∧ openerOf w.text = none) (vs : List Word) :
    outside text 0 (ws ++ w :: vs) = outside text 0 ws ++ w :: outside text 0 vs := by
  rw [hws.outside_append, outside_word hw.1 hw.2, if_neg (Nat.lt_irrefl 0)]

end Word

namespace TypeName

theorem balanced (t : TypeName) : Balanced Word.text t.words := by
  refine .of_words fun w hw => ?_
  rcases t.plain_or_comma w hw with h | rfl
  · exact h.noBracket
  · exact ⟨rfl, rfl⟩

end TypeName

namespace Pattern

open Word (sign contextual)

theorem balanced : ∀ (p : Pattern) (place : Nat), Balanced Word.text (p.words place)
  | constant c, _ => .word c.plain.noBracket.1 c.plain.noBracket.2 .nil
  | type t, _ => t.balanced
  | relational r c, _ => by
    refine .word ?_ ?_ (.word c.plain.noBracket.1 c.plain.noBracket.2 .nil) <;> cases r <;> rfl
  | empty, _ => show Balanced Word.text (sign "\x7b" :: ([] ++ [sign "\x7d"])) from .block rfl rfl .nil .nil
  | paren p, _ => Word.balanced_inParens (p.balanced 0)
  | not p, _ => Word.balanced_parensIf (.word rfl rfl (p.balanced 2))
  | and p q, _ => Word.balanced_parensIf ((p.balanced 1).append (.word rfl rfl (q.balanced 2)))
  | or p q, _ => Word.balanced_parensIf ((p.balanced 0).append (.word rfl rfl (q.balanced 1)))

/-- The marks that patterns have. -/
def marks : List Word := [sign "(", sign ")", sign "\x7b", sign "\x7d", sign ",", contextual "or"]

theorem plain_or_mark (p : Pattern) : ∀ place, ∀ w ∈ p.words place, w.Plain ∨ w ∈ marks := by
  have hopens : (sign "(").Plain ∨ sign "(" ∈ marks := .inr (by decide)
  have hcloses : (sign ")").Plain ∨ sign ")" ∈ marks := .inr (by decide)
  induction p with
  | constant c => exact fun _ => List.forall_mem_singleton.2 (.inl c.plain)
  | type t => exact fun _ w hw => (t.plain_or_comma w hw).imp_right fun h => by rw [h]; decide
  | relational r c =>
    refine fun _ => List.forall_mem_cons.2 ⟨.inl ?_, List.forall_mem_singleton.2 (.inl c.plain)⟩
    cases r <;> decide
  | empty => exact fun _ w hw => .inr ((by decide : ∀ w ∈ [sign "\x7b", sign "\x7d"], w ∈ marks) w hw)
  | paren p ih => exact fun _ => Word.forall_mem_inParens hopens hcloses (ih 0)
  | not p ih =>
    exact fun _ => Word.forall_mem_parensIf hopens hcloses (List.forall_mem_cons.2 ⟨.inl (by decide), ih 2⟩)
  | and p q ihp ihq =>
    exact fun _ => Word.forall_mem_parensIf hopens hcloses
      (List.forall_mem_append.2 ⟨ihp 1, List.forall_mem_cons.2 ⟨.inl (by decide), ihq 2⟩⟩)
  | or p q ihp ihq =>
    exact fun _ => Word.forall_mem_parensIf hopens hcloses
      (List.forall_mem_append.2 ⟨ihp 0, List.forall_mem_cons.2 ⟨.inr (by decide), ihq 1⟩⟩)

/-- An operand of `and` or `not`, and what stands behind an `or`, has no `or` outside of brackets. -/
theorem or_not_outside (p : Pattern) : ∀ {place : Nat}, 0 < place →
    contextual "or" ∉ outside Word.text 0 (p.words place) := by
  have hor : ¬ (contextual "or").Plain := by decide
  induction p with
  | constant c =>
    intro place _ h
    exact hor (List.mem_singleton.1 (outside_subset _ _ _ h) ▸ c.plain)
  | type t =>
    intro place _ h
    rcases t.plain_or_comma _ (outside_subset _ _ _ h) with h | h
    · exact hor h
    · cases h
  | relational r c =>
    intro place _ h
    rcases List.mem_pair.1 (outside_subset _ _ _ h) with h | h
    · cases r <;> cases h
    · exact hor (h ▸ c.plain)
  | empty =>
    intro place _ h
    cases h
  | paren p =>
    intro place _ h
    rw [words, Word.inParens, outside_block rfl rfl (p.balanced 0)] at h
    cases h
  | not p ih =>
    intro place _ h
    have h := (Word.mem_outside_parensIf (.word rfl rfl (p.balanced 2)) h).2
    rw [outside_word rfl rfl, if_neg (Nat.lt_irrefl 0)] at h
    exact ih (by decide) ((List.mem_cons.1 h).resolve_left (by decide))
  | and p q ihp ihq =>
    intro place _ h
    have h := (Word.mem_outside_parensIf ((p.balanced 1).append (.word rfl rfl (q.balanced 2))) h).2
    rw [Word.outside_between (p.balanced 1) ⟨rfl, rfl⟩, List.mem_append, List.mem_cons] at h
    rcases h with h | h | h
    · exact ihp (by decide) h
    · exact absurd h (by decide)
    · exact ihq (by decide) h
  | or p q =>
    intro place hplace h
    exact (Word.mem_outside_parensIf ((p.balanced 0).append (.word rfl rfl (q.balanced 1))) h).1 hplace

/-- The last word of a pattern. -/
inductive EndsIn : Word → Prop
  | name (n : Name) : EndsIn n.word
  | constant (c : Constant) : EndsIn c.word
  | predefined (text : String) (known : text ∈ predefinedTypes) : EndsIn (.keyword text)
  | paren : EndsIn (sign ")")
  | arguments : EndsIn (sign ">")
  | properties : EndsIn (sign "\x7d")

/-- Words of which the last one is the last word of a pattern. -/
def Ends (ws : List Word) : Prop := ∃ front w, ws = front ++ [w] ∧ EndsIn w

theorem Ends.append {ws : List Word} (h : Ends ws) (vs : List Word) : Ends (vs ++ ws) := by
  obtain ⟨front, w, rfl, hw⟩ := h
  exact ⟨vs ++ front, w, (List.append_assoc _ _ _).symm, hw⟩

theorem Ends.cons {ws : List Word} (h : Ends ws) (w : Word) : Ends (w :: ws) := h.append [w]

theorem ends_inParens (ws : List Word) : Ends (Word.inParens ws) := ⟨sign "(" :: ws, sign ")", rfl, .paren⟩

theorem Ends.parensIf {needed : Prop} [Decidable needed] {ws : List Word} (h : Ends ws) :
    Ends (Word.parensIf needed ws) := by
  unfold Word.parensIf
  split
  · exact ends_inParens ws
  · exact h

theorem ends_type : ∀ t : TypeName, Ends t.words
  | .predefined text known => ⟨[], _, rfl, .predefined text known⟩
  | .named n => ⟨[], _, rfl, .name n⟩
  | .generic n arguments => ⟨n.word :: sign "<" :: arguments.words, _, rfl, .arguments⟩

theorem ends (p : Pattern) : ∀ place, Ends (p.words place) := by
  induction p with
  | constant c => exact fun _ => ⟨[], _, rfl, .constant c⟩
  | type t => exact fun _ => ends_type t
  | relational r c => exact fun _ => ⟨[r.word], _, rfl, .constant c⟩
  | empty => exact fun _ => ⟨[sign "\x7b"], _, rfl, .properties⟩
  | paren p => exact fun _ => ends_inParens _
  | not p ih => exact fun _ => ((ih 2).cons _).parensIf
  | and p q _ ihq => exact fun _ => (((ihq 2).cons _).append _).parensIf
  | or p q _ ihq => exact fun _ => (((ihq 1).cons _).append _).parensIf

/-- Is an `or` behind the pattern read as one between patterns? Behind type arguments and properties it is not, as they
are no operands, nor behind a comma outside of brackets, which is taken for the end of the pattern. -/
def isReadOn (p : Pattern) : Bool :=
  !(outside Word.text 0 (p.words 0)).contains (sign ",") &&
    !([some (sign ">"), some (sign "\x7d")].contains (p.words 0).getLast?)

/-- Is the pattern an alternative of which some `or` is read as one? -/
def isAlternative : Pattern → Bool
  | or p _ => p.isAlternative || p.isReadOn
  | _ => false

end Pattern

namespace Condition

open Word (sign)

theorem balanced : ∀ (c : Condition) (place : Nat), Balanced Word.text (c.words place)
  | name n, _ => .word n.plain.noBracket.1 n.plain.noBracket.2 .nil
  | constant c, _ => .word c.plain.noBracket.1 c.plain.noBracket.2 .nil
  | paren c, _ => Word.balanced_inParens (c.balanced 0)
  | notName n, _ => .word rfl rfl (.word n.plain.noBracket.1 n.plain.noBracket.2 .nil)
  | notParen c, _ => .word rfl rfl (Word.balanced_inParens (c.balanced 0))
  | and c e, _ => Word.balanced_parensIf ((c.balanced 1).append (.word rfl rfl (e.balanced 2)))
  | or c e, _ => Word.balanced_parensIf ((c.balanced 0).append (.word rfl rfl (e.balanced 1)))
  | is n p, _ =>
    Word.balanced_parensIf (.word n.plain.noBracket.1 n.plain.noBracket.2 (.word rfl rfl (p.balanced 0)))

/-- The marks that conditions have. -/
def marks : List Word := [sign "&&", sign "||", .keyword "is"] ++ Pattern.marks

/-- The operators that tell alternatives. -/
def connectives : List Word := [sign "||", sign "&&", .contextual "or"]

theorem plain_or_mark (c : Condition) : ∀ place, ∀ w ∈ c.words place, w.Plain ∨ w ∈ marks := by
  have hopens : (sign "(").Plain ∨ sign "(" ∈ marks := .inr (by decide)
  have hcloses : (sign ")").Plain ∨ sign ")" ∈ marks := .inr (by decide)
  induction c with
  | name n => exact fun _ => List.forall_mem_singleton.2 (.inl n.plain)
  | constant c => exact fun _ => List.forall_mem_singleton.2 (.inl c.plain)
  | paren c ih => exact fun _ => Word.forall_mem_inParens hopens hcloses (ih 0)
  | notName n =>
    exact fun _ => List.forall_mem_cons.2 ⟨.inl (by decide), List.forall_mem_singleton.2 (.inl n.plain)⟩
  | notParen c ih =>
    exact fun _ => List.forall_mem_cons.2 ⟨.inl (by decide), Word.forall_mem_inParens hopens hcloses (ih 0)⟩
  | and c e ihc ihe =>
    exact fun _ => Word.forall_mem_parensIf hopens hcloses
      (List.forall_mem_append.2 ⟨ihc 1, List.forall_mem_cons.2 ⟨.inr (by decide), ihe 2⟩⟩)
  | or c e ihc ihe =>
    exact fun _ => Word.forall_mem_parensIf hopens hcloses
      (List.forall_mem_append.2 ⟨ihc 0, List.forall_mem_cons.2 ⟨.inr (by decide), ihe 1⟩⟩)
  | is n p =>
    exact fun _ => Word.forall_mem_parensIf hopens hcloses (List.forall_mem_cons.2 ⟨.inl n.plain,
      List.forall_mem_cons.2 ⟨.inr (by decide),
        fun w hw => (p.plain_or_mark 0 w hw).imp_right (List.mem_append_right _)⟩⟩)

/-- An operand of `&&`, and what stands behind a `||`, has no `||` outside of brackets. -/
theorem disjunct_not_outside (c : Condition) : ∀ {place : Nat}, 0 < place →
    sign "||" ∉ outside Word.text 0 (c.words place) := by
  have hor : ¬ (sign "||").Plain := by decide
  induction c with
  | name n =>
    intro place _ h
    exact hor (List.mem_singleton.1 (outside_subset _ _ _ h) ▸ n.plain)
  | constant c =>
    intro place _ h
    exact hor (List.mem_singleton.1 (outside_subset _ _ _ h) ▸ c.plain)
  | paren c =>
    intro place _ h
    rw [words, Word.inParens, outside_block rfl rfl (c.balanced 0)] at h
    cases h
  | notName n =>
    intro place _ h
    rcases List.mem_pair.1 (outside_subset _ _ _ h) with h | h
    · exact absurd h (by decide)
    · cases h
  | notParen c =>
    intro place _ h
    rw [words, outside_word rfl rfl, if_neg (Nat.lt_irrefl 0), Word.inParens,
      outside_block rfl rfl (c.balanced 0)] at h
    exact absurd h (by decide)
  | and c e ihc ihe =>
    intro place _ h
    have h := (Word.mem_outside_parensIf ((c.balanced 1).append (.word rfl rfl (e.balanced 2))) h).2
    rw [Word.outside_between (c.balanced 1) ⟨rfl, rfl⟩, List.mem_append, List.mem_cons] at h
    rcases h with h | h | h
    · exact ihc (by decide) h
    · exact absurd h (by decide)
    · exact ihe (by decide) h
  | or c e =>
    intro place hplace h
    exact (Word.mem_outside_parensIf ((c.balanced 0).append (.word rfl rfl (e.balanced 1))) h).1 hplace
  | is n p =>
    intro place _ h
    have h := (Word.mem_outside_parensIf (.word n.plain.noBracket.1 n.plain.noBracket.2
      (.word rfl rfl (p.balanced 0))) h).2
    rcases List.mem_cons.1 (outside_subset _ _ _ h) with h | h
    · cases h
    · rcases p.plain_or_mark 0 _ ((List.mem_cons.1 h).resolve_left (by decide)) with h | h
      · exact hor h
      · exact absurd h (by decide)

/-- The condition without the parentheses around all of it. -/
def root : Condition → Condition
  | paren c => c.root
  | c => c

/-- Is the condition read as an alternative: a `||`, or a test for a pattern that is read as one? -/
def isAlternative : Condition → Bool
  | paren c => c.isAlternative
  | or _ _ => true
  | is _ p => p.isAlternative
  | _ => false

/-- What is read as an alternative is a `||`, or a test for patterns between which some `or` is read as one. -/
theorem isAlternative_iff (c : Condition) : c.isAlternative = true ↔
    (∃ a b, c.root = .or a b) ∨ ∃ n p q, c.root = .is n (.or p q) ∧ (p.isAlternative = true ∨ p.isReadOn = true) := by
  induction c with
  | paren c ih => exact ih
  | or a b => exact iff_of_true rfl (.inl ⟨a, b, rfl⟩)
  | is n p =>
    cases p with
    | or p q => simp [root, isAlternative, Pattern.isAlternative]
    | _ => simp [root, isAlternative, Pattern.isAlternative]
  | _ => simp [root, isAlternative]

end Condition

end LayoutLint
