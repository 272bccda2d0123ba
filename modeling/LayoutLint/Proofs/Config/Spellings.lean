import LayoutLint.Linter
import LayoutLint.Proofs.Config.Reading
import Mathlib.Data.List.Forall2
/-!
# Spellings — a severity by its name and in an object

What is said of a rule may be the name of a severity, or an object with a member `severity`. An object put in the place
of the name is accepted where the name is (`Config.fits_of_respells`) and gives every rule the severity that it had. It
leaves a rule on or off as well, except for `off`, which switches a rule off as a name and not in an object
(`Config.spelled_of_ofText`).
-/
namespace LayoutLint

/-! ### Members side by side -/

section Memberwise

variable {α β : Type} {R : String → α → β → Prop} {ms : List (String × α)} {ms' : List (String × β)}

/-- Two lists of members have the same names, and values that are related member by member. -/
def MemberwiseRel (R : String → α → β → Prop) (ms : List (String × α)) (ms' : List (String × β)) : Prop :=
  List.Forall₂ (fun m m' => m.1 = m'.1 ∧ R m.1 m.2 m'.2) ms ms'

theorem MemberwiseRel.lookup (h : MemberwiseRel R ms ms') (name : String) :
    Option.Rel (R name) (ms.lookup name) (ms'.lookup name) := by
  induction h with
  | nil => exact .none
  | @cons m m' ms ms' hm _ ih =>
    obtain ⟨hname, hvalue⟩ := hm
    rw [List.lookup_cons, List.lookup_cons, ← hname]
    by_cases h : name = m.1
    · subst h
      simpa using Option.Rel.some hvalue
    · rw [beq_eq_false_iff_ne.2 h]
      exact ih

theorem MemberwiseRel.map {α' β' : Type} {R' : String → α' → β' → Prop} {f : α → α'} {g : β → β'}
    (h : MemberwiseRel R ms ms') (hR : ∀ name a b, R name a b → R' name (f a) (g b)) :
    MemberwiseRel R' (ms.map fun m => (m.1, f m.2)) (ms'.map fun m => (m.1, g m.2)) := by
  rw [MemberwiseRel, List.forall₂_map_left_iff, List.forall₂_map_right_iff]
  exact h.imp fun _ _ hm => ⟨hm.1, hR _ _ _ hm.2⟩

theorem MemberwiseRel.exists_of_mem (h : MemberwiseRel R ms ms') :
    ∀ m' ∈ ms', ∃ a, (m'.1, a) ∈ ms ∧ R m'.1 a m'.2 := by
  induction h with
  | nil => simp
  | @cons m m' ms ms' hm _ ih =>
    refine List.forall_mem_cons.2 ⟨⟨m.2, ?_, hm.1 ▸ hm.2⟩, fun m' hm' => ?_⟩
    · rw [← hm.1]
      exact List.mem_cons_self
    · obtain ⟨a, ha, hR⟩ := ih m' hm'
      exact ⟨a, List.mem_cons_of_mem _ ha, hR⟩

end Memberwise

/-! ### Spellings in a text -/

namespace JsonValue

/-- The value is an object with a member `severity`, a name, and whatever other members. -/
def GivesSeverity (x : String) (v : JsonValue) : Prop :=
  ∃ members, v = .object members ∧ ("severity", .string x) ∈ members ∧ ∀ w, ("severity", w) ∈ members → w = .string x

/-- What is said of a rule is the same, or the name of a severity is put into an object. -/
inductive RespellsOption : JsonValue → JsonValue → Prop
  | same (v : JsonValue) : RespellsOption v v
  | detailed {x : String} {v : JsonValue} (h : GivesSeverity x v) : RespellsOption (.string x) v

/-- The one configuration is the other but for names of severities that are put into objects. -/
def Respells (v v' : JsonValue) : Prop :=
  ∃ members members', v = .object members ∧ v' = .object members' ∧
    MemberwiseRel (fun name w w' => w = w' ∨ name = "options" ∧ ∃ options options',
      w = .object options ∧ w' = .object options' ∧ MemberwiseRel (fun _ => RespellsOption) options options')
      members members'

theorem GivesSeverity.member? {x : String} {v : JsonValue} (h : v.GivesSeverity x) :
    v.member? "severity" = some (.string x) := by
  obtain ⟨members, rfl, hmem, hall⟩ := h
  rw [JsonValue.member?]
  cases hlookup : members.lookup "severity" with
  | none =>
    have := List.lookup_eq_none_iff.1 hlookup _ hmem
    simp at this
  | some w =>
    obtain ⟨front, behind, hmembers, -⟩ := List.lookup_eq_some_iff.1 hlookup
    rw [hall w (by rw [hmembers]; exact List.mem_append_cons_self)]

end JsonValue

/-- What is said of a rule is the same, or the name of a severity is put into an object. -/
inductive RuleOption.Respells : RuleOption → RuleOption → Prop
  | same (o : RuleOption) : Respells o o
  | detailed {x : String} {v : JsonValue} (h : v.member? "severity" = some (.string x)) :
    Respells (.named x) (.detailed v)

theorem RuleOption.Respells.severity?_eq {o o' : RuleOption} (h : o.Respells o') : o'.severity? = o.severity? := by
  cases h with
  | same => rfl
  | detailed h => simp [RuleOption.severity?, h, JsonValue.string?]

theorem JsonValue.Respells.member?_eq {v v' : JsonValue} (h : v.Respells v') {name : String}
    (hname : name ≠ "options") : v'.member? name = v.member? name := by
  obtain ⟨members, members', rfl, rfl, hmembers⟩ := h
  have hrel := hmembers.lookup name
  rw [JsonValue.member?, JsonValue.member?]
  generalize members.lookup name = o at hrel ⊢
  generalize members'.lookup name = o' at hrel ⊢
  cases hrel with
  | none => rfl
  | some h =>
    rcases h with rfl | ⟨h, -⟩
    · rfl
    · exact absurd h hname

namespace Config

open JsonValue (RespellsOption)

/-! ### Every spelling is accepted -/

theorem ruleSchema_fits_of_givesSeverity {x : String} {v : JsonValue} (h : v.GivesSeverity x)
    (hx : ruleSchema.Fits (.string x)) : ruleSchema.Fits v := by
  obtain ⟨members, rfl, -, hall⟩ := h
  have hword : (Schema.word ["off", "error", "warning", "info"]).Fits (.string x) := by
    obtain ⟨s, hs, hfits⟩ := Schema.fits_either_iff.1 hx
    simp only [List.mem_cons, List.not_mem_nil, or_false] at hs
    obtain rfl | rfl | rfl := hs
    · cases hfits
    · exact hfits
    · cases hfits
  refine Schema.fits_either_iff.2 ⟨_, List.mem_cons_of_mem _ (List.mem_cons_of_mem _ List.mem_cons_self),
    Schema.fits_record_iff.2 ⟨fun m hm => ?_, by simp⟩⟩
  by_cases hname : m.1 = "severity"
  · rw [hname, hall m.2 (hname ▸ hm)]
    exact hword
  · rw [List.lookup_cons, beq_eq_false_iff_ne.2 hname]
    rfl

theorem ruleSchema_fits_of_respellsOption {v v' : JsonValue} (h : RespellsOption v v') (hv : ruleSchema.Fits v) :
    ruleSchema.Fits v' := by
  cases h with
  | same => exact hv
  | detailed h => exact ruleSchema_fits_of_givesSeverity h hv

/-- **A configuration fits whichever way its severities are spelled.** -/
theorem fits_of_respells {v v' : JsonValue} (h : schema.Fits v) (hrespells : v.Respells v') : schema.Fits v' := by
  obtain ⟨members, members', rfl, rfl, hmembers⟩ := hrespells
  rw [schema, Schema.fits_record_iff] at h ⊢
  refine ⟨fun m' hm' => ?_, by simp⟩
  obtain ⟨w, hw, hrel⟩ := hmembers.exists_of_mem m' hm'
  have hfits := h.1 (m'.1, w) hw
  rcases hrel with rfl | ⟨hname, options, options', rfl, hoptions', hoptions⟩
  · exact hfits
  · rw [hname] at hfits ⊢
    rw [hoptions']
    have hold : ∀ m ∈ options, ruleSchema.Fits m.2 := Schema.fits_mapOf_iff.1 hfits
    refine Schema.fits_mapOf_iff.2 fun m hm => ?_
    obtain ⟨o, ho, hrel⟩ := hoptions.exists_of_mem m hm
    exact ruleSchema_fits_of_respellsOption hrel (hold _ ho)

/-- What is said of rules in a value. -/
def optionsOf (v : JsonValue) : List (String × RuleOption) :=
  match v.member? "options" with
  | some (.object members) => members.map fun (id, value) => (id, ruleOptionOf value)
  | _ => []

/-- Two values that differ only in what they say of rules hold configurations that differ only in that. -/
theorem ofJson?_eq_map {v v' : JsonValue} (h : ∀ name, name ≠ "options" → v'.member? name = v.member? name) :
    ofJson? v' = (ofJson? v).map fun c => { c with options := optionsOf v' } := by
  simp only [ofJson?, lengthOf?, itemsOf, stringsOf, h "max_line_length" (by decide), h "overrides" (by decide),
    h "extension_methods" (by decide), h "include" (by decide), h "exclude" (by decide), h "timings" (by decide)]
  simp only [Option.bind_eq_bind, Option.map_bind, Function.comp_def, Option.pure_def, Option.map_some]
  rfl

theorem ruleOptionOf_respells {v v' : JsonValue} (h : RespellsOption v v') :
    (ruleOptionOf v).Respells (ruleOptionOf v') := by
  cases h with
  | same => exact .same _
  | detailed h =>
    obtain ⟨members, rfl, -⟩ := id h
    exact .detailed h.member?

theorem optionsOf_respells {v v' : JsonValue} (h : v.Respells v') :
    MemberwiseRel (fun _ => RuleOption.Respells) (optionsOf v) (optionsOf v') := by
  obtain ⟨members, members', rfl, rfl, hmembers⟩ := h
  have hsame (os : List (String × RuleOption)) : MemberwiseRel (fun _ => RuleOption.Respells) os os :=
    List.forall₂_same.2 fun m _ => ⟨rfl, .same m.2⟩
  have hrel := hmembers.lookup "options"
  rw [optionsOf, optionsOf, JsonValue.member?, JsonValue.member?]
  generalize members.lookup "options" = o at hrel ⊢
  generalize members'.lookup "options" = o' at hrel ⊢
  cases hrel with
  | none => exact hsame []
  | some h =>
    rcases h with rfl | ⟨-, options, options', rfl, rfl, hoptions⟩
    · exact hsame _
    · exact hoptions.map fun _ _ _ => ruleOptionOf_respells

/-- The one configuration is the other but for names of severities that are put into objects. -/
structure Respells (c c' : Config) : Prop where
  kept : c' = { c with options := c'.options }
  options : MemberwiseRel (fun _ => RuleOption.Respells) c.options c'.options

/-- **The text is accepted in another spelling.** -/
theorem ofText_respells {text text' : String} {c : Config} {v v' : JsonValue} (h : ofText text = .ok c)
    (hv : JsonValue.readRelaxed? text = some (some v)) (hv' : JsonValue.readRelaxed? text' = some (some v'))
    (hrespells : v.Respells v') : ∃ c', ofText text' = .ok c' ∧ c.Respells c' := by
  obtain ⟨value, c₀, hvalue, hfits, hjson, hglobs⟩ := ofText_eq_ok_iff.1 h
  obtain rfl : some v = value := Option.some.inj (hv.symm.trans hvalue)
  obtain ⟨globs, hread, rfl⟩ := withGlobs_eq_ok_iff.1 hglobs
  have hjson' : ofJson? v' = some { c₀ with options := optionsOf v' } := by
    rw [ofJson?_eq_map fun name hname => hrespells.member?_eq hname, show ofJson? v = some c₀ from hjson]
    rfl
  refine ⟨{ c₀ with options := optionsOf v', overrideGlobs := globs },
    ofText_eq_ok_iff.2 ⟨some v', _, hv', fits_of_respells hfits hrespells, hjson', withGlobs_eq_ok_iff.2
      ⟨globs, hread, rfl⟩⟩, rfl, ?_⟩
  have hoptions : c₀.options = optionsOf v := by
    have hself : ofJson? v = (ofJson? v).map fun c => { c with options := optionsOf v } := ofJson?_eq_map fun _ _ => rfl
    rw [show ofJson? v = some c₀ from hjson] at hself
    exact congrArg Config.options (Option.some.inj hself)
  change MemberwiseRel _ c₀.options (optionsOf v')
  rw [hoptions]
  exact optionsOf_respells hrespells

/-! ### What a configuration says in another spelling -/

variable {c c' : Config}

/-- A rule is off by the name `off` in the one configuration, and has an object in its place in the other. -/
def Wakes (c c' : Config) (ruleId : String) : Prop :=
  c.options.lookup ruleId = some (.named "off") ∧ ∃ v, c'.options.lookup ruleId = some (.detailed v)

theorem Respells.severity_eq (h : c.Respells c') (ruleId : String) : c'.severity ruleId = c.severity ruleId := by
  have hrel := h.options.lookup ruleId
  rw [severity, severity]
  generalize c.options.lookup ruleId = o at hrel ⊢
  generalize c'.options.lookup ruleId = o' at hrel ⊢
  cases hrel with
  | none => rfl
  | some h => rw [Option.bind_some, Option.bind_some, h.severity?_eq]

theorem Respells.isEnabled_eq_iff (h : c.Respells c') (ruleId : String) :
    c'.isEnabled ruleId = c.isEnabled ruleId ↔ ¬ c.Wakes c' ruleId := by
  have hrel := h.options.lookup ruleId
  rw [isEnabled, isEnabled, Wakes]
  generalize c.options.lookup ruleId = o at hrel ⊢
  generalize c'.options.lookup ruleId = o' at hrel ⊢
  cases hrel with
  | none => simp
  | some h =>
    cases h with
    | same =>
      rename_i o
      cases o <;> simp
    | @detailed x v _ => by_cases hx : x = "off" <;> simp [RuleOption.isEnabled, hx]

theorem Respells.registry_eq_iff (h : c.Respells c') :
    c'.registry = c.registry ↔ ∀ rule ∈ builtinRules, ¬ c.Wakes c' rule.id := by
  have hfilter : c'.registry = c.registry ↔ builtinRules.filter (fun rule => c'.isEnabled rule.id) =
      builtinRules.filter fun rule => c.isEnabled rule.id := by
    rw [registry, registry, Registry.mk.injEq]
    simp only [h.severity_eq]
    exact List.map_inj_right fun _ _ hrule => congrArg ActiveRule.rule hrule
  rw [hfilter]
  constructor
  · intro heq rule hrule
    rw [← h.isEnabled_eq_iff, Bool.eq_iff_iff]
    have hmem := Iff.of_eq (congrArg (rule ∈ ·) heq)
    simpa [List.mem_filter, hrule] using hmem
  · exact fun hnot => List.filter_congr fun rule hrule => (h.isEnabled_eq_iff rule.id).2 (hnot rule hrule)

/-- Linting and mending under a configuration look at the options of rules only for the rules that are on. -/
theorem Respells.lint_eq (h : c.Respells c') (hregistry : c'.registry = c.registry) (cancelled : Bool) (source : String)
    (path : Option String) :
    ((Linter.ofConfig c' cancelled).bind fun l => l.lint source path) =
        ((Linter.ofConfig c cancelled).bind fun l => l.lint source path) ∧
      ((Linter.ofConfig c' cancelled).bind fun l => l.fix source path) =
        ((Linter.ofConfig c cancelled).bind fun l => l.fix source path) := by
  have hkept := h.kept
  generalize c'.options = options at hkept
  subst hkept
  rw [Linter.ofConfig, Linter.ofConfig, hregistry]
  dsimp only
  cases FileFilter.ofPatterns c.included c.excluded with
  | error e => exact ⟨rfl, rfl⟩
  | ok filter => exact ⟨rfl, rfl⟩

/-- **Names of severities put into objects.** The text is accepted again, and every rule has the severity that it had.
A rule is on as it was, except where `off` was put into an object; so the rules that are on, and what linting and
mending make of a text, are the same if this befell no rule of this library. -/
theorem spelled_of_ofText {text text' : String} {c : Config} {v v' : JsonValue} (h : ofText text = .ok c)
    (hv : JsonValue.readRelaxed? text = some (some v)) (hv' : JsonValue.readRelaxed? text' = some (some v'))
    (hrespells : v.Respells v') : ∃ c', ofText text' = .ok c' ∧ c' = { c with options := c'.options } ∧
      (∀ ruleId, c'.severity ruleId = c.severity ruleId) ∧
      (∀ ruleId, c'.isEnabled ruleId = c.isEnabled ruleId ↔ ¬ c.Wakes c' ruleId) ∧
      (c'.registry = c.registry ↔ ∀ rule ∈ builtinRules, ¬ c.Wakes c' rule.id) ∧
      ((∀ rule ∈ builtinRules, ¬ c.Wakes c' rule.id) → ∀ cancelled source path,
        ((Linter.ofConfig c' cancelled).bind fun l => l.lint source path) =
            ((Linter.ofConfig c cancelled).bind fun l => l.lint source path) ∧
          ((Linter.ofConfig c' cancelled).bind fun l => l.fix source path) =
            ((Linter.ofConfig c cancelled).bind fun l => l.fix source path)) := by
  obtain ⟨c', hread, hc⟩ := ofText_respells h hv hv' hrespells
  exact ⟨c', hread, hc.kept, hc.severity_eq, hc.isEnabled_eq_iff, hc.registry_eq_iff, fun hnone =>
    hc.lint_eq (hc.registry_eq_iff.2 hnone)⟩

/-- A severity and an `off`, by their names. -/
def namesText : String := "\x7b'options': \x7b'final-newline': 'info', 'max-line-length': 'off'\x7d\x7d"

/-- The same in objects. -/
def objectsText : String :=
  "\x7b'options': \x7b'final-newline': \x7b'severity': 'info'\x7d, 'max-line-length': \x7b'severity': 'off'\x7d\x7d\x7d"

open JsonValue in
theorem spelled_of_ofText_off : ∃ c c', ofText namesText = .ok c ∧ ofText objectsText = .ok c' ∧
    c'.severity "final-newline" = .info ∧ c'.isEnabled "final-newline" = c.isEnabled "final-newline" ∧
    c'.isEnabled "max-line-length" ≠ c.isEnabled "max-line-length" ∧ c'.registry ≠ c.registry := by
  let info := object [("severity", .string "info")]
  let off := object [("severity", .string "off")]
  let names := object [("final-newline", .string "info"), ("max-line-length", .string "off")]
  let objects := object [("final-newline", info), ("max-line-length", off)]
  have htokens : JsonToken.scanAll? namesText.toList = some [
      .openBrace, .string "options", .colon, .openBrace, .string "final-newline", .colon, .string "info", .comma,
      .string "max-line-length", .colon, .string "off", .closeBrace, .closeBrace] := by decide +kernel
  have hv : readRelaxed? namesText = some (some (.object [("options", names)])) := by
    rw [readRelaxed?, htokens]
    simp only [readValue?, readMembers?, memberName?, Shorter.skipComma, Shorter.cons, Shorter.tail, Shorter.trans,
      Option.map_some]
    rfl
  have htokens' : JsonToken.scanAll? objectsText.toList = some [
      .openBrace, .string "options", .colon, .openBrace,
      .string "final-newline", .colon, .openBrace, .string "severity", .colon, .string "info", .closeBrace, .comma,
      .string "max-line-length", .colon, .openBrace, .string "severity", .colon, .string "off", .closeBrace,
      .closeBrace, .closeBrace] := by decide +kernel
  have hv' : readRelaxed? objectsText = some (some (.object [("options", objects)])) := by
    rw [readRelaxed?, htokens']
    simp only [readValue?, readMembers?, memberName?, Shorter.skipComma, Shorter.cons, Shorter.tail, Shorter.trans,
      Option.map_some]
    rfl
  have h : ofText namesText =
      .ok { options := [("final-newline", .named "info"), ("max-line-length", .named "off")] } :=
    ofText_eq_ok_iff.2 ⟨_, _, hv, by decide +kernel, rfl, rfl⟩
  have h' : ofText objectsText =
      .ok { options := [("final-newline", .detailed info), ("max-line-length", .detailed off)] } :=
    ofText_eq_ok_iff.2 ⟨_, _, hv', by decide +kernel, rfl, rfl⟩
  have hinfo : info.GivesSeverity "info" := ⟨_, rfl, List.mem_singleton_self _, by simp⟩
  have hoff : off.GivesSeverity "off" := ⟨_, rfl, List.mem_singleton_self _, by simp⟩
  have hrespells : JsonValue.Respells (.object [("options", names)]) (.object [("options", objects)]) :=
    ⟨_, _, rfl, rfl, .cons ⟨rfl, .inr ⟨rfl, _, _, rfl, rfl,
      .cons ⟨rfl, .detailed hinfo⟩ (.cons ⟨rfl, .detailed hoff⟩ .nil)⟩⟩ .nil⟩
  obtain ⟨c', hread, -, hseverity, henabled, hregistry, -⟩ := spelled_of_ofText h hv hv' hrespells
  obtain rfl := Except.ok.inj (h'.symm.trans hread)
  refine ⟨_, _, h, h', hseverity _, (henabled _).2 fun hwakes => ?_, fun heq => ?_, fun heq => ?_⟩
  · exact absurd (RuleOption.named.inj (Option.some.inj hwakes.1)) (by decide)
  · exact (henabled _).1 heq ⟨rfl, off, rfl⟩
  · exact hregistry.1 heq .maxLineLength (by simp [builtinRules]) ⟨rfl, off, rfl⟩

end Config

end LayoutLint
