import LayoutLint.Proofs.Config.Overrides
/-!
# Resolved — the options that a configuration comes to

A configuration gives its options as raw texts, from which an analysis reads them again. The length of a file comes
through: it is that of the last override with a length that applies to the file, or else the one for all files
(`maxLineLengthFor_eq_iff`). The extension methods come through as long as each entry is a name; an entry with a comma
comes to several names, and white space around a name is lost (`resolve_of_ofText`).
-/
namespace LayoutLint.Config

/-- A length is the one for a file: that of the last override with a length that applies to the file, or the one for
all files if there is no such override. -/
def IsLengthFor (c : Config) (path : Option String) (n : Nat) : Prop :=
  (∃ before o after, c.overrides = before ++ o :: after ∧ c.covers path o = true ∧ o.maxLineLength = some n ∧
      ∀ o' ∈ after, c.covers path o' = true → o'.maxLineLength = none) ∨
    c.maxLineLength = n ∧ ∀ o ∈ c.overrides, c.covers path o = true → o.maxLineLength = none

variable {c : Config}

/-- The length that an override gives a file. -/
def lengthFrom (c : Config) (path : Option String) (o : ConfigOverride) : Option Nat :=
  if c.covers path o = true then o.maxLineLength else none

theorem lengthFrom_eq_some_iff {path : Option String} {o : ConfigOverride} {n : Nat} :
    c.lengthFrom path o = some n ↔ c.covers path o = true ∧ o.maxLineLength = some n := by
  rw [lengthFrom, Option.ite_none_right_eq_some]

theorem lengthFrom_eq_none_iff {path : Option String} {o : ConfigOverride} :
    c.lengthFrom path o = none ↔ (c.covers path o = true → o.maxLineLength = none) := by
  rw [lengthFrom, ite_eq_right_iff]

theorem InStep.maxLineLengthFor_eq (h : c.InStep) (path : Option String) :
    c.maxLineLengthFor path = (c.overrides.reverse.findSome? (c.lengthFrom path)).getD c.maxLineLength := by
  rw [maxLineLengthFor, h.overridesFor_eq, List.filterMap_filter, List.getLast?_filterMap]
  rfl

theorem lastLength_eq_some_iff {path : Option String} {n : Nat} :
    c.overrides.reverse.findSome? (c.lengthFrom path) = some n ↔
      ∃ before o after, c.overrides = before ++ o :: after ∧ c.covers path o = true ∧ o.maxLineLength = some n ∧
        ∀ o' ∈ after, c.covers path o' = true → o'.maxLineLength = none := by
  rw [List.findSome?_eq_some_iff]
  constructor
  · rintro ⟨after, o, before, hsplit, ho, hafter⟩
    obtain ⟨hcovers, hlength⟩ := lengthFrom_eq_some_iff.1 ho
    refine ⟨before.reverse, o, after.reverse, by simpa using congrArg List.reverse hsplit, hcovers, hlength, ?_⟩
    exact fun o' ho' => lengthFrom_eq_none_iff.1 (hafter o' (List.mem_reverse.1 ho'))
  · rintro ⟨before, o, after, hsplit, hcovers, hlength, hafter⟩
    refine ⟨after.reverse, o, before.reverse, by simp [hsplit], lengthFrom_eq_some_iff.2 ⟨hcovers, hlength⟩, ?_⟩
    exact fun o' ho' => lengthFrom_eq_none_iff.2 (hafter o' (List.mem_reverse.1 ho'))

/-- **The length for a file** is that of the last override with a length that applies to it. -/
theorem InStep.maxLineLengthFor_eq_iff (h : c.InStep) {path : Option String} {n : Nat} :
    c.maxLineLengthFor path = n ↔ c.IsLengthFor path n := by
  rw [h.maxLineLengthFor_eq, IsLengthFor, ← lastLength_eq_some_iff, Option.getD_eq_iff, List.findSome?_eq_none_iff]
  simp only [List.mem_reverse, lengthFrom_eq_none_iff, and_comm]

/-- A length for a file is one of those that are given. -/
theorem IsLengthFor.isLength {path : Option String} {n : Nat} (h : c.IsLengthFor path n)
    (hdefault : IsLength c.maxLineLength) (hoverrides : ∀ o ∈ c.overrides, ∀ n, o.maxLineLength = some n → IsLength n) :
    IsLength n := by
  rcases h with ⟨before, o, after, hsplit, -, hlength, -⟩ | ⟨rfl, -⟩
  · exact hoverrides o (by rw [hsplit]; exact List.mem_append_cons_self) n hlength
  · exact hdefault

/-! ### What an analysis reads -/

theorem resolve_maxLineLength {path : Option String} (h : IsLength (c.maxLineLengthFor path)) :
    (AnalyzerOptions.resolve c.provider path).maxLineLength = c.maxLineLengthFor path := by
  have hraw : c.provider path maxLineLengthOption.key = some (toString (c.maxLineLengthFor path)) := rfl
  have hresolve (p : OptionProvider) :
      (AnalyzerOptions.resolve p path).maxLineLength = maxLineLengthOption.resolve p path := rfl
  rw [hresolve, AnalyzerOption.resolve, hraw]
  simp only [read_maxLineLength h, Option.getD_some]

theorem resolve_extensionMethods (path : Option String) :
    (AnalyzerOptions.resolve c.provider path).extensionMethods =
      c.extensionMethods.flatMap fun e => Text.namesIn e.toList := by
  have hraw : c.provider path extensionMethodsOption.key =
      if c.extensionMethods.isEmpty then none else some (",".intercalate c.extensionMethods) := rfl
  have hresolve (p : OptionProvider) :
      (AnalyzerOptions.resolve p path).extensionMethods = extensionMethodsOption.resolve p path := rfl
  rw [hresolve, AnalyzerOption.resolve, hraw]
  cases c.extensionMethods with
  | nil => rfl
  | cons e es => simp only [List.isEmpty_cons, Bool.false_eq_true, if_false, read_extensionMethods, Option.getD_some]

/-- **The options of a configuration that is read**, whatever directory it belongs to. The length for a file comes
through as it stands. The extension methods come to the names in their entries, which are the entries themselves exactly
when no entry has a comma, or white space at its ends. -/
theorem resolve_of_ofText {text : String} {c₀ : Config} (h : ofText text = .ok c₀) (base path : Option String) :
    let c := { c₀ with baseDirectory := base }
    let options := AnalyzerOptions.resolve c.provider path
    (∀ n, options.maxLineLength = n ↔ c.IsLengthFor path n) ∧
      options.extensionMethods = c.extensionMethods.flatMap (fun e => Text.namesIn e.toList) ∧
      (options.extensionMethods = c.extensionMethods ↔
        ∀ e ∈ c.extensionMethods, ',' ∉ e.toList ∧ Text.trim e = e) := by
  intro c options
  have hstep : c.InStep := (inStep_of_ofText h : c₀.InStep)
  obtain ⟨hdefault, hoverrides⟩ := isLength_of_ofText h
  have hlength : c.IsLengthFor path (c.maxLineLengthFor path) := hstep.maxLineLengthFor_eq_iff.1 rfl
  have hmethods : options.extensionMethods = _ := resolve_extensionMethods path
  refine ⟨fun n => ?_, hmethods, ?_⟩
  · rw [← hstep.maxLineLengthFor_eq_iff, ← resolve_maxLineLength (hlength.isLength hdefault hoverrides)]
  · rw [hmethods, Text.flatMap_namesIn_eq_iff]
    exact forall₂_congr fun e he => and_iff_right (extensionMethods_ne_empty h e he)

/-- An entry with a comma, one with a blank in front, and an override with a length. -/
def unjoinableText : String :=
  "\x7b'extension_methods': ['A,B', ' x'], 'overrides': [\x7b'files': '*.cs', 'max_line_length': 90\x7d]\x7d"

open JsonValue in
theorem resolve_of_ofText_comma : ∃ c, ofText unjoinableText = .ok c ∧ c.extensionMethods = ["A,B", " x"] ∧
    (AnalyzerOptions.resolve c.provider (some "a.cs")).maxLineLength = 90 ∧
    (AnalyzerOptions.resolve c.provider (some "a.cs")).extensionMethods = ["A", "B", "x"] := by
  have htokens : JsonToken.scanAll? unjoinableText.toList = some [
      .openBrace, .string "extension_methods", .colon, .openBracket, .string "A,B", .comma, .string " x", .closeBracket,
      .comma, .string "overrides", .colon, .openBracket, .openBrace, .string "files", .colon, .string "*.cs", .comma,
      .string "max_line_length", .colon, .number ['9', '0'], .closeBrace, .closeBracket, .closeBrace] := by
    decide +kernel
  have hread : readRelaxed? unjoinableText = some (some (.object [
      ("extension_methods", .array [.string "A,B", .string " x"]),
      ("overrides", .array [.object [("files", .string "*.cs"), ("max_line_length", .integer 90)]])])) := by
    rw [readRelaxed?, htokens]
    simp only [readValue?, readItems?, readMembers?, memberName?, Shorter.skipComma, Shorter.cons, Shorter.tail,
      Shorter.trans, Option.map_some]
    rfl
  have hreadable : (ConfigOverride.glob? ⟨"*.cs", some 90⟩).isSome = true := by decide +kernel
  obtain ⟨g, hg⟩ := Option.isSome_iff_exists.1 hreadable
  have hglobs : readGlobs [⟨"*.cs", some 90⟩] = .ok [g] := readGlobs_eq_ok_iff.2 (by rw [List.map_singleton, hg]; rfl)
  have h : ofText unjoinableText =
      .ok { extensionMethods := ["A,B", " x"], overrides := [⟨"*.cs", some 90⟩], overrideGlobs := [g] } :=
    ofText_eq_ok_iff.2 ⟨_, _, hread, by decide +kernel, rfl, withGlobs_eq_ok_iff.2 ⟨_, hglobs, rfl⟩⟩
  have hcovers : covers {} (some "a.cs") ⟨"*.cs", some 90⟩ = true := by decide +kernel
  have hnames : ["A,B", " x"].flatMap (fun e => Text.namesIn e.toList) = ["A", "B", "x"] := by decide
  obtain ⟨hlength, hmethods, -⟩ := resolve_of_ofText h none (some "a.cs")
  exact ⟨_, h, rfl, (hlength 90).2 (.inl ⟨[], _, [], rfl, hcovers, rfl, by simp⟩), hmethods.trans hnames⟩

end LayoutLint.Config
