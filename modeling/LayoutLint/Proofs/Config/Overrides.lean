import LayoutLint.Proofs.Config.Reading
import Mathlib.Data.List.TakeWhile
/-!
# Overrides — overrides added one after another

A configuration that was made or read has the patterns of its overrides beside them, one for one and in order
(`Made.inStep`), and an override whose pattern can be read keeps it so (`InStep.pushOverride`). One that is refused
stays among the overrides: nothing else changes, but from then on every further one is refused for it
(`pushOverride_refused`). So what overrides come to is told by the first that cannot be read
(`pushed_of_made`): the patterns are those of the overrides in front of it, and only these are found for a file.
-/
namespace LayoutLint

/-- The pattern of the override, if its text writes one. -/
def ConfigOverride.glob? (o : ConfigOverride) : Option Glob := Glob.ofText? o.files

/-- Can the pattern of the override be read? -/
def ConfigOverride.isReadable (o : ConfigOverride) : Bool := o.glob?.isSome

namespace Config

/-- Why an override is refused whose pattern cannot be read. -/
def refusal (o : ConfigOverride) : ConfigError := .invalidOverrideGlob o.files

/-! ### Reading the patterns of overrides -/

theorem readGlobs_cons (o : ConfigOverride) (os : List ConfigOverride) : readGlobs (o :: os) =
    match o.glob? with
    | some g => (readGlobs os).map (g :: ·)
    | none => .error (refusal o) := by
  rw [readGlobs, List.mapM_cons, ConfigOverride.glob?]
  cases Glob.ofText? o.files with
  | none => rfl
  | some g =>
    rw [readGlobs]
    rfl

/-- The patterns that are read are those of the overrides, one for one. -/
theorem readGlobs_eq_ok_iff {os : List ConfigOverride} {globs : List Glob} :
    readGlobs os = .ok globs ↔ os.map (·.glob?) = globs.map some := by
  have hone : ∀ (o : ConfigOverride) (g : Glob),
      (match Glob.ofText? o.files with
        | some g => .ok g
        | none => .error (.invalidOverrideGlob o.files) : Except ConfigError Glob) = .ok g ↔ o.glob? = some g := by
    intro o g
    rw [ConfigOverride.glob?]
    cases Glob.ofText? o.files <;> simp
  rw [readGlobs, mapM_eq_ok_iff, ← List.forall₂_eq_eq_eq, List.forall₂_map_left_iff, List.forall₂_map_right_iff]
  exact ⟨fun h => h.imp fun o g => (hone o g).1, fun h => h.imp fun o g => (hone o g).2⟩

/-- The first pattern that cannot be read is the one that is complained of. -/
theorem readGlobs_eq_error {good : List ConfigOverride} (hgood : ∀ o ∈ good, o.isReadable = true)
    {bad : ConfigOverride} (hbad : bad.glob? = none) (rest : List ConfigOverride) :
    readGlobs (good ++ bad :: rest) = .error (refusal bad) := by
  induction good with
  | nil => rw [List.nil_append, readGlobs_cons, hbad]
  | cons o good ih =>
    obtain ⟨g, hg⟩ := Option.isSome_iff_exists.1 (hgood o List.mem_cons_self)
    rw [List.cons_append, readGlobs_cons, hg, ih fun o ho => hgood o (List.mem_cons_of_mem _ ho)]
    rfl

/-! ### One override -/

/-- The patterns of the overrides stand beside them, one for one and in order. -/
def InStep (c : Config) : Prop := c.overrides.map (·.glob?) = c.overrideGlobs.map some

variable {c : Config}

/-- **An override whose pattern can be read is added with its pattern.** -/
theorem InStep.pushOverride (h : c.InStep) {o : ConfigOverride} {g : Glob} (hg : o.glob? = some g) :
    c.pushOverride o =
        ({ c with overrides := c.overrides ++ [o], overrideGlobs := c.overrideGlobs ++ [g] }, none) ∧
      (c.pushOverride o).1.InStep := by
  have hread : (c.overrides ++ [o]).map (·.glob?) = (c.overrideGlobs ++ [g]).map some := by
    rw [List.map_append, List.map_append, h, List.map_singleton, hg, List.map_singleton]
  have hpush : c.pushOverride o =
      ({ c with overrides := c.overrides ++ [o], overrideGlobs := c.overrideGlobs ++ [g] }, none) := by
    rw [Config.pushOverride, withGlobs, readGlobs_eq_ok_iff.2 hread]
    rfl
  exact ⟨hpush, by rw [hpush]; exact hread⟩

/-- **An override is refused for the first that cannot be read**, itself or one from before, and stays. -/
theorem pushOverride_refused {o : ConfigOverride} {good : List ConfigOverride} {bad : ConfigOverride}
    {rest : List ConfigOverride} (h : c.overrides ++ [o] = good ++ bad :: rest)
    (hgood : ∀ o ∈ good, o.isReadable = true) (hbad : bad.glob? = none) :
    c.pushOverride o = ({ c with overrides := c.overrides ++ [o] }, some (refusal bad)) := by
  have hread := readGlobs_eq_error hgood hbad rest
  rw [← h] at hread
  rw [pushOverride, withGlobs, hread]
  rfl

theorem eq_of_pushOverride_ne_none {o : ConfigOverride} (h : (c.pushOverride o).2 ≠ none) :
    (c.pushOverride o).1 = { c with overrides := c.overrides ++ [o] } := by
  rw [pushOverride] at h ⊢
  cases hglobs : withGlobs { c with overrides := c.overrides ++ [o] } with
  | ok c' =>
    rw [hglobs] at h
    exact absurd rfl h
  | error e => rfl

/-! ### Several overrides -/

/-- The configuration after overrides were added one after another, whatever became of each, and what was wrong each
time. -/
def pushAll (c : Config) : List ConfigOverride → Config × List (Option ConfigError)
  | [] => (c, [])
  | o :: os => (((c.pushOverride o).1.pushAll os).1, (c.pushOverride o).2 :: ((c.pushOverride o).1.pushAll os).2)

theorem pushAll_append (c : Config) (os os' : List ConfigOverride) : c.pushAll (os ++ os') =
    (((c.pushAll os).1.pushAll os').1, (c.pushAll os).2 ++ ((c.pushAll os).1.pushAll os').2) := by
  induction os generalizing c with
  | nil => rfl
  | cons o os ih =>
    rw [List.cons_append, pushAll, ih]
    rfl

/-- Overrides with patterns that can be read. -/
theorem InStep.pushAll (h : c.InStep) {os : List ConfigOverride} (hos : ∀ o ∈ os, o.isReadable = true) :
    ∃ globs, c.pushAll os = ({ c with overrides := c.overrides ++ os, overrideGlobs := c.overrideGlobs ++ globs },
        List.replicate os.length none) ∧
      (c.pushAll os).1.InStep := by
  induction os generalizing c with
  | nil => exact ⟨[], by simp [Config.pushAll], h⟩
  | cons o os ih =>
    obtain ⟨g, hg⟩ := Option.isSome_iff_exists.1 (hos o List.mem_cons_self)
    obtain ⟨hpush, hstep⟩ := h.pushOverride hg
    obtain ⟨globs, hrest, hin⟩ := ih hstep fun o ho => hos o (List.mem_cons_of_mem _ ho)
    refine ⟨g :: globs, ?_, hin⟩
    rw [Config.pushAll, hrest, hpush]
    simp [List.replicate_succ]

/-- Overrides that are added when one cannot be read. -/
theorem pushAll_refused {good : List ConfigOverride} (hgood : ∀ o ∈ good, o.isReadable = true) {bad : ConfigOverride}
    (hbad : bad.glob? = none) {o : ConfigOverride} {os : List ConfigOverride} {rest : List ConfigOverride}
    (h : c.overrides ++ [o] = good ++ bad :: rest) :
    c.pushAll (o :: os) = ({ c with overrides := c.overrides ++ o :: os },
      List.replicate (os.length + 1) (some (refusal bad))) := by
  induction os generalizing c o rest with
  | nil =>
    rw [pushAll, pushOverride_refused h hgood hbad]
    rfl
  | cons o' os ih =>
    have hnext := @ih { c with overrides := c.overrides ++ [o] } o' (rest ++ [o']) (by
      rw [← List.cons_append, ← List.append_assoc, ← h])
    rw [pushAll, pushOverride_refused h hgood hbad, hnext, List.append_assoc, List.singleton_append]
    rfl

/-! ### The overrides for a file -/

/-- Does the override apply to a file? It does when its pattern can be read and matches the file. -/
def covers (c : Config) (path : Option String) (o : ConfigOverride) : Bool :=
  path.any fun p => o.glob?.any fun g => c.isMatch g p

theorem map_filter_zip (p : Glob → Bool) {front : List ConfigOverride} (behind : List ConfigOverride)
    {globs : List Glob} (h : front.map (·.glob?) = globs.map some) :
    (((front ++ behind).zip globs).filter fun (_, g) => p g).map (·.1) = front.filter fun o => o.glob?.any p := by
  induction front generalizing globs with
  | nil =>
    obtain rfl : globs = [] := List.map_eq_nil_iff.1 h.symm
    rw [List.zip_nil_right]
    rfl
  | cons o front ih =>
    obtain ⟨g, globs, rfl⟩ := List.exists_cons_of_ne_nil (l := globs) (by rintro rfl; cases h)
    obtain ⟨hg, h⟩ := List.cons.inj h
    have hp : o.glob?.any p = p g := congrArg (Option.any p) hg
    rw [List.cons_append, List.zip_cons_cons, List.filter_cons, List.filter_cons, hp]
    by_cases hg : p g = true
    · rw [if_pos hg, if_pos hg, List.map_cons, ih h]
    · rw [if_neg hg, if_neg hg, ih h]

/-- **The overrides for a file** are those that apply to it, among the ones that have their patterns beside them. -/
theorem overridesFor_eq {front behind : List ConfigOverride} (h : c.overrides = front ++ behind)
    (hglobs : front.map (·.glob?) = c.overrideGlobs.map some) (path : Option String) :
    c.overridesFor path = front.filter (c.covers path) := by
  cases path with
  | none => exact (List.filter_eq_nil_iff.2 fun _ _ => Bool.false_ne_true).symm
  | some path =>
    rw [overridesFor, h]
    exact map_filter_zip (c.isMatch · path) behind hglobs

theorem InStep.overridesFor_eq (h : c.InStep) (path : Option String) :
    c.overridesFor path = c.overrides.filter (c.covers path) :=
  Config.overridesFor_eq (List.append_nil _).symm h path

/-! ### What overrides come to -/

/-- The configuration is the default, or was read from a text. -/
def Made (c : Config) : Prop := c = {} ∨ ∃ text, ofText text = .ok c

theorem inStep_of_withGlobs {c' : Config} (h : c.withGlobs = .ok c') : c'.InStep := by
  obtain ⟨globs, hglobs, rfl⟩ := withGlobs_eq_ok_iff.1 h
  exact readGlobs_eq_ok_iff.1 hglobs

theorem inStep_of_ofText {text : String} (h : ofText text = .ok c) : c.InStep := by
  obtain ⟨_, _, -, -, -, hglobs⟩ := ofText_eq_ok_iff.1 h
  exact inStep_of_withGlobs hglobs

theorem Made.inStep (h : c.Made) : c.InStep := by
  rcases h with rfl | ⟨text, h⟩
  · rfl
  · exact inStep_of_ofText h

/-- The overrides in front of the first whose pattern cannot be read. -/
def readable (os : List ConfigOverride) : List ConfigOverride := os.takeWhile (·.isReadable)

/-- The overrides from the first on whose pattern cannot be read. -/
def unreadable (os : List ConfigOverride) : List ConfigOverride := os.dropWhile (·.isReadable)

/-- What it comes to that overrides are added to a configuration one after another. -/
structure Pushed (c : Config) (os : List ConfigOverride) : Prop where
  /-- All of them are kept, and nothing else changes but the patterns. -/
  kept : (c.pushAll os).1 =
    { c with overrides := c.overrides ++ os, overrideGlobs := (c.pushAll os).1.overrideGlobs }
  /-- The patterns are those of the overrides up to the first that cannot be read, one for one and in order. -/
  compiled : (c.overrides ++ readable os).map (·.glob?) = (c.pushAll os).1.overrideGlobs.map some
  /-- Those are added, and from there on each is refused for the first that cannot be read. -/
  answers : (c.pushAll os).2 = List.replicate (readable os).length none ++
    List.replicate (unreadable os).length ((unreadable os).head?.map refusal)
  /-- So the patterns are those of all overrides as long as none was refused, and no longer. -/
  inStep_iff : (c.pushAll os).1.InStep ↔ ∀ a ∈ (c.pushAll os).2, a = none
  /-- Only overrides that were added without fault are found for a file. -/
  found : ∀ path, (c.pushAll os).1.overridesFor path = (c.overrides ++ readable os).filter (c.covers path)
  /-- One more that is refused is kept too, and what is found for a file stays the same. -/
  refused : ∀ o, ((c.pushAll os).1.pushOverride o).2 ≠ none →
    ((c.pushAll os).1.pushOverride o).1 = { (c.pushAll os).1 with overrides := (c.pushAll os).1.overrides ++ [o] } ∧
      ∀ path, ((c.pushAll os).1.pushOverride o).1.overridesFor path = (c.pushAll os).1.overridesFor path

theorem readable_append_unreadable (os : List ConfigOverride) : readable os ++ unreadable os = os :=
  List.takeWhile_append_dropWhile

theorem isReadable_of_mem_readable {os : List ConfigOverride} : ∀ o ∈ readable os, o.isReadable = true :=
  fun _ => List.mem_takeWhile_imp

/-- Overrides end in one that cannot be read, and those after it, or can all be read. -/
theorem unreadable_cases (os : List ConfigOverride) :
    unreadable os = [] ∨ ∃ bad rest, unreadable os = bad :: rest ∧ bad.glob? = none := by
  have hhead := List.head?_dropWhile_not (·.isReadable) os
  cases h : unreadable os with
  | nil => exact .inl rfl
  | cons bad rest =>
    rw [unreadable] at h
    rw [h] at hhead
    exact .inr ⟨bad, rest, rfl, Option.not_isSome_iff_eq_none.1 (ne_true_of_eq_false hhead)⟩

theorem InStep.isReadable (h : c.InStep) : ∀ o ∈ c.overrides, o.isReadable = true := by
  intro o ho
  obtain ⟨g, -, hg⟩ := List.mem_map.1 (h ▸ List.mem_map_of_mem ho : o.glob? ∈ c.overrideGlobs.map some)
  rw [ConfigOverride.isReadable, ← hg]
  rfl

/-- Overrides added to a configuration with all its patterns: those up to the first bad one, and then the others. -/
theorem InStep.pushAll_eq (h : c.InStep) (os : List ConfigOverride) : ∃ globs,
    c.pushAll os = ({ c with overrides := c.overrides ++ os, overrideGlobs := c.overrideGlobs ++ globs },
      List.replicate (readable os).length none ++
        List.replicate (unreadable os).length ((unreadable os).head?.map refusal)) ∧
    (c.overrides ++ readable os).map (·.glob?) = (c.overrideGlobs ++ globs).map some := by
  have hfront : ∀ o ∈ readable os, o.isReadable = true := isReadable_of_mem_readable
  obtain ⟨globs, hgood, hin⟩ := h.pushAll hfront
  rw [hgood] at hin
  refine ⟨globs, ?_, hin⟩
  have hos := readable_append_unreadable os
  rcases unreadable_cases os with hnil | ⟨bad, rest, hbad, hglob⟩
  · rw [hnil, List.append_nil] at hos
    rw [hos] at hgood
    rw [hgood, hnil, hos]
    simp
  · rw [hbad] at hos
    have hreadable : ∀ o ∈ c.overrides ++ readable os, o.isReadable = true := fun o ho =>
      (List.mem_append.1 ho).elim (h.isReadable o) (hfront o)
    have hrefused : Config.pushAll
          { c with overrides := c.overrides ++ readable os, overrideGlobs := c.overrideGlobs ++ globs }
          (bad :: rest) = _ :=
      pushAll_refused hreadable hglob rfl
    have hpush := c.pushAll_append (readable os) (bad :: rest)
    rw [hos, hgood, hrefused] at hpush
    rw [hpush, hbad, List.append_assoc, hos]
    rfl

theorem InStep.compiled (h : c.InStep) (os : List ConfigOverride) :
    (c.overrides ++ readable os).map (·.glob?) = (c.pushAll os).1.overrideGlobs.map some := by
  obtain ⟨globs, hpush, hcompiled⟩ := h.pushAll_eq os
  rw [hpush]
  exact hcompiled

theorem InStep.overrides_pushAll (h : c.InStep) (os : List ConfigOverride) :
    (c.pushAll os).1.overrides = (c.overrides ++ readable os) ++ unreadable os := by
  obtain ⟨globs, hpush, -⟩ := h.pushAll_eq os
  rw [hpush, List.append_assoc, readable_append_unreadable]

/-- Every override has its pattern exactly when none is refused. -/
theorem InStep.inStep_pushAll_iff (h : c.InStep) (os : List ConfigOverride) :
    (c.pushAll os).1.InStep ↔ ∀ a ∈ (c.pushAll os).2, a = none := by
  obtain ⟨globs, hpush, -⟩ := h.pushAll_eq os
  have hoverrides := h.overrides_pushAll os
  constructor
  · intro hin a ha
    have hnil : unreadable os = [] := List.dropWhile_eq_nil_iff.2 fun o ho => hin.isReadable o (by
      rw [hpush]
      exact List.mem_append_right _ ho)
    rw [hpush, hnil, List.length_nil, List.replicate_zero, List.append_nil] at ha
    exact List.eq_of_mem_replicate ha
  · intro hanswers
    rcases unreadable_cases os with hnil | ⟨bad, rest, hbad, -⟩
    · rw [hnil, List.append_nil] at hoverrides
      rw [InStep, hoverrides]
      exact h.compiled os
    · rw [hpush, hbad] at hanswers
      have := hanswers (some (refusal bad)) (by simp [List.replicate_succ])
      cases this

/-- An override that is refused is not found, and does not change which others are. -/
theorem InStep.overridesFor_refused (h : c.InStep) (os : List ConfigOverride) {o : ConfigOverride}
    (hne : ((c.pushAll os).1.pushOverride o).2 ≠ none) (path : Option String) :
    ((c.pushAll os).1.pushOverride o).1.overridesFor path = (c.pushAll os).1.overridesFor path := by
  have hoverrides := h.overrides_pushAll os
  have hlonger : (c.pushAll os).1.overrides ++ [o] = (c.overrides ++ readable os) ++ (unreadable os ++ [o]) := by
    rw [hoverrides, List.append_assoc (c.overrides ++ readable os)]
  have hfound := Config.overridesFor_eq (c := { (c.pushAll os).1 with overrides := _ }) hlonger (h.compiled os) path
  rw [eq_of_pushOverride_ne_none hne]
  exact hfound.trans (Config.overridesFor_eq hoverrides (h.compiled os) path).symm

/-- **What overrides come to is told by the first that cannot be read.** -/
theorem pushed_of_made (h : c.Made) (os : List ConfigOverride) : c.Pushed os := by
  obtain ⟨globs, hpush, -⟩ := h.inStep.pushAll_eq os
  exact {
    kept := by rw [hpush]
    compiled := h.inStep.compiled os
    answers := by rw [hpush]
    inStep_iff := h.inStep.inStep_pushAll_iff os
    found := fun path => by
      rw [overridesFor_eq (h.inStep.overrides_pushAll os) (h.inStep.compiled os), hpush]
      rfl
    refused := fun o hne => ⟨eq_of_pushOverride_ne_none hne, h.inStep.overridesFor_refused os hne⟩ }

/-- An override whose pattern cannot be read, between two that can. -/
theorem pushed_of_made_bracket :
    let c : Config := {}
    let os : List ConfigOverride := [⟨"*.Designer.cs", some 300⟩, ⟨"[", some 10⟩, ⟨"**", some 9⟩]
    c.Made ∧ (c.pushAll os).1.overrides = os ∧
      (c.pushAll os).2 = [none, some (.invalidOverrideGlob "["), some (.invalidOverrideGlob "[")] ∧
      ¬ (c.pushAll os).1.InStep ∧ (c.pushAll os).1.overridesFor (some "Form.Designer.cs") = os.take 1 ∧
      (c.pushAll os).1.overridesFor (some "Program.cs") = [] := by
  intro c os
  have h : c.Made := .inl rfl
  have hgood : readable os = os.take 1 := by decide +kernel
  have hbad : unreadable os = os.drop 1 := by decide +kernel
  obtain ⟨hkept, -, hanswers, hstep, hfound, -⟩ := pushed_of_made h os
  rw [hgood, hbad] at hanswers
  refine ⟨h, by rw [hkept]; rfl, hanswers, ?_, ?_, ?_⟩
  · rw [hstep, hanswers]
    decide
  · rw [hfound, hgood]
    decide +kernel
  · rw [hfound, hgood]
    decide +kernel

end Config

end LayoutLint
