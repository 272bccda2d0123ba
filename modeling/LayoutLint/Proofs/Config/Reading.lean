import LayoutLint.Config.Reader
import LayoutLint.Proofs.Config.RawOptions
import LayoutLint.Proofs.Fallible
/-!
# Reading — what a text that is accepted holds

A configuration that is read is that of a value of the right shape (`Config.ofText_eq_ok_iff`). What the shape says of a
member holds of it (`Schema.Fits.member`), and an integer that was read is one that 64 bits hold
(`JsonValue.isMachine_of_readRelaxed?`). So a length that is read is a positive number that can be written and read
again (`Config.isLength_of_ofText`).
-/
namespace LayoutLint

/-! ### Integers that are read -/

namespace JsonValue

/-- Every integer in the value is one that 64 bits hold. -/
inductive IsMachine : JsonValue → Prop
  | null : IsMachine null
  | bool (on : Bool) : IsMachine (bool on)
  | integer {n : Int} (h : isMachineInteger n = true) : IsMachine (integer n)
  | decimal (d : Decimal) : IsMachine (decimal d)
  | string (s : String) : IsMachine (string s)
  | array {items : List JsonValue} (h : ∀ v ∈ items, IsMachine v) : IsMachine (array items)
  | object {members : List (String × JsonValue)} (h : ∀ m ∈ members, IsMachine m.2) : IsMachine (object members)

theorem isMachine_ofNumeral (s : List Char) : (ofNumeral s).IsMachine := by
  rw [ofNumeral]
  dsimp only
  split
  · split
    · rename_i n _
      split
      · refine .integer ?_
        rw [isMachineInteger, decide_eq_true_eq]
        split <;> omega
      · exact .string _
    · exact .string _
  · split
    · rename_i h
      simp only [Bool.and_eq_true] at h
      exact .integer h.1.2
    · split
      · exact .decimal _
      · exact .string _

theorem mem_insertMember {name : String} {value : JsonValue} {members : List (String × JsonValue)} :
    ∀ m ∈ insertMember name value members, m = (name, value) ∨ m ∈ members := by
  induction members with
  | nil => simp [insertMember]
  | cons m ms ih =>
    rw [insertMember]
    intro m' hm
    split at hm
    · exact List.mem_cons.1 hm
    · split at hm
      · exact (List.mem_cons.1 hm).imp_right (List.mem_cons_of_mem _)
      · rcases List.mem_cons.1 hm with rfl | hm
        · exact .inr List.mem_cons_self
        · exact (ih m' hm).imp_right (List.mem_cons_of_mem _)

theorem isMachine_objectOf {members : List (String × JsonValue)} (h : ∀ m ∈ members, m.2.IsMachine) :
    (objectOf members).IsMachine := by
  have hstep : ∀ ms : List (String × JsonValue), (∀ m ∈ ms, m.2.IsMachine) → ∀ m ∈ members,
      ∀ m' ∈ insertMember m.1 m.2 ms, m'.2.IsMachine := by
    intro ms hms m hm m' hm'
    rcases mem_insertMember m' hm' with rfl | hold
    · exact h m hm
    · exact hms m' hold
  exact .object (List.foldlRecOn members _ (by simp) hstep)

/-- What is read one after another from tokens: a value, the members of an object, the items of an array. -/
theorem isMachine_of_reads :
    (∀ ts, ∀ v rest, readValue? ts = some (v, rest) → v.IsMachine) ∧
    (∀ ts, ∀ members rest, readMembers? ts = some (members, rest) → ∀ m ∈ members, m.2.IsMachine) ∧
    (∀ ts, ∀ items rest, readItems? ts = some (items, rest) → ∀ v ∈ items, v.IsMachine) := by
  apply readValue?.mutual_induct
  -- the tokens that are values
  case case2 | case3 | case4 | case5 =>
    intros
    rename_i h
    simp only [readValue?, Option.some.injEq, Prod.mk.injEq] at h
    obtain ⟨rfl, -⟩ := h
    first | exact .null | exact .bool _ | exact .string _ | exact isMachine_ofNumeral _
  case case6 =>
    intro r ih v rest h
    simp only [readValue?, Option.map_eq_some_iff, Prod.exists, Prod.mk.injEq] at h
    obtain ⟨items, last, hitems, rfl, -⟩ := h
    exact .array (ih items last hitems)
  case case7 =>
    intro r ih v rest h
    simp only [readValue?, Option.map_eq_some_iff, Prod.exists, Prod.mk.injEq] at h
    obtain ⟨members, last, hmembers, rfl, -⟩ := h
    exact isMachine_objectOf (ih members last hmembers)
  -- one more member, one more item
  case case10 =>
    intro t r hclose name value rest hvalue hname after ihvalue ih members rest' h
    rw [readMembers?, hname, hvalue] at h
    · simp only [Option.map_eq_some_iff, Prod.exists, Prod.mk.injEq] at h
      obtain ⟨ms, last, hms, rfl, -⟩ := h
      exact List.forall_mem_cons.2 ⟨ihvalue value rest hvalue, ih ms last hms⟩
    · exact hclose
  case case15 =>
    intro ts hclose value rest hvalue after ihvalue ih items rest' h
    rw [readItems?, hvalue] at h
    · simp only [Option.map_eq_some_iff, Prod.exists, Prod.mk.injEq] at h
      obtain ⟨vs, last, hvs, rfl, -⟩ := h
      exact List.forall_mem_cons.2 ⟨ihvalue value rest hvalue, ih vs last hvs⟩
    · exact hclose
  -- the ends of containers
  case case9 | case13 => simp [readMembers?, readItems?]
  case case1 => simp [readValue?]
  -- where nothing can be read
  case case8 =>
    intro t r _ _ _ _ _ _ v rest h
    rw [readValue?] at h <;> simp_all
  case case11 =>
    intro t r hclose hnone _ members rest h
    rw [readMembers?] at h
    · split at h
      · rename_i name value rest' hname hvalue
        exact (hnone name value rest' hname hvalue).elim
      · cases h
    · exact hclose
  case case12 =>
    intro ts hclose hmember members rest h
    rw [readMembers?] at h <;> simp_all
  case case14 =>
    intro ts hclose hvalue _ items rest h
    rw [readItems?, hvalue] at h
    · cases h
    · exact hclose

theorem isMachine_of_readRelaxed? {text : String} {v : JsonValue} (h : readRelaxed? text = some (some v)) :
    v.IsMachine := by
  rw [readRelaxed?] at h
  split at h
  · cases h
  · cases h
  · rename_i ts _ _
    split at h
    · rename_i value hend hvalue
      obtain rfl := Option.some.inj (Option.some.inj h)
      exact isMachine_of_reads.1 ts _ _ hvalue
    · cases h

theorem IsMachine.member? {v w : JsonValue} {name : String} (h : v.IsMachine) (hw : v.member? name = some w) :
    w.IsMachine := by
  cases h with
  | object h =>
    obtain ⟨front, behind, hmembers, -⟩ := List.lookup_eq_some_iff.1 hw
    exact h (name, w) (by rw [hmembers]; exact List.mem_append_cons_self)
  | _ => cases hw

end JsonValue

/-! ### What a shape asks for -/

namespace Schema

/-- The value has the shape. -/
def Fits (schema : Schema) (v : JsonValue) : Prop := schema.fault? v = none

instance (schema : Schema) (v : JsonValue) : Decidable (schema.Fits v) :=
  inferInstanceAs (Decidable (schema.fault? v = none))

variable {isOpen : Bool} {required : List String} {fields : List (String × Schema)} {schema : Schema}

theorem fits_listOf_iff {items : List JsonValue} :
    (listOf schema).Fits (.array items) ↔ ∀ v ∈ items, schema.Fits v := by
  simp only [Fits, fault?, List.findSome?_eq_none_iff, Option.map_eq_none_iff, Prod.forall]
  constructor
  · intro h v hv
    obtain ⟨i, hi, rfl⟩ := List.mem_iff_getElem.1 hv
    exact h _ i (List.mk_mem_zipIdx_iff_getElem?.2 (List.getElem?_eq_getElem hi))
  · intro h v i hv
    exact h v (List.mem_of_getElem? (List.mk_mem_zipIdx_iff_getElem?.1 hv))

theorem fits_mapOf_iff {members : List (String × JsonValue)} :
    (mapOf schema).Fits (.object members) ↔ ∀ m ∈ members, schema.Fits m.2 := by
  simp only [Fits, fault?, List.findSome?_eq_none_iff, Option.map_eq_none_iff]

theorem memberFault?_eq_none_iff {name : String} {v : JsonValue} :
    memberFault? isOpen name v fields = none ↔ (fields.lookup name).elim (isOpen = true) (·.Fits v) := by
  induction fields with
  | nil => simp [memberFault?]
  | cons field fields ih =>
    rw [memberFault?, List.lookup_cons]
    by_cases h : field.1 = name
    · simp [h, Fits]
    · rw [if_neg h, beq_eq_false_iff_ne.2 (Ne.symm h), ih]

theorem fits_record_iff {members : List (String × JsonValue)} :
    (record isOpen required fields).Fits (.object members) ↔
      (∀ m ∈ members, (fields.lookup m.1).elim (isOpen = true) (·.Fits m.2)) ∧
      ∀ name ∈ required, (members.lookup name).isSome = true := by
  rw [Fits, fault?]
  simp only [Option.orElse_eq_orElse, Option.orElse_eq_or, Option.or_eq_none_iff, List.findSome?_eq_none_iff,
    memberFault?_eq_none_iff, ite_eq_left_iff, reduceCtorEq, List.all_eq_true, imp_false, Decidable.not_not]

/-- **What the shape of an object says of a member** holds of it. -/
theorem Fits.member {v w : JsonValue} {name : String} (h : (record isOpen required fields).Fits v)
    (hschema : fields.lookup name = some schema) (hw : v.member? name = some w) : schema.Fits w := by
  cases v with
  | object members =>
    obtain ⟨front, behind, hmembers, -⟩ := List.lookup_eq_some_iff.1 hw
    have := (fits_record_iff.1 h).1 (name, w) (by rw [hmembers]; exact List.mem_append_cons_self)
    rwa [hschema] at this
  | _ => cases hw

theorem fits_positive_integer_iff {n : Int} : positive.Fits (.integer n) ↔ 0 < n := by
  rw [Fits, fault?]
  simp

theorem fits_nonEmptyText_iff {v : JsonValue} : nonEmptyText.Fits v ↔ ∃ s, v = .string s ∧ s ≠ "" := by
  cases v <;> simp [Fits, fault?]

theorem fits_either_iff {schemas : List Schema} {v : JsonValue} :
    (either schemas).Fits v ↔ ∃ s ∈ schemas, s.Fits v := by
  have hone : fitsOne v schemas = true ↔ ∃ s ∈ schemas, s.Fits v := by
    induction schemas with
    | nil => simp [fitsOne]
    | cons s schemas ih =>
      rw [fitsOne, Bool.or_eq_true, ih, Option.isNone_iff_eq_none]
      simp [Fits]
  rw [← hone, Fits, fault?, ite_eq_left_iff]
  simp

end Schema

/-! ### Configurations that are read -/

namespace Config

/-- **A configuration that is read** is that of a value of the right shape, with the patterns of its overrides. -/
theorem ofText_eq_ok_iff {text : String} {c : Config} : ofText text = .ok c ↔
    ∃ value c₀, JsonValue.readRelaxed? text = some value ∧ schema.Fits (value.getD (.object [])) ∧
      ofJson? (value.getD (.object [])) = some c₀ ∧ c₀.withGlobs = .ok c := by
  rw [ofText]
  constructor
  · intro h
    split at h
    · cases h
    rename_i value hvalue
    dsimp only at h
    split at h
    · cases h
    rename_i hfault
    split at h
    · cases h
    rename_i c₀ hjson
    exact ⟨value, c₀, hvalue, hfault, hjson, h⟩
  · rintro ⟨value, c₀, hvalue, hfault, hjson, h⟩
    rw [hvalue]
    simp only [show schema.fault? (value.getD (.object [])) = none from hfault, hjson, h]

/-- Reading the patterns of overrides changes nothing else. -/
theorem withGlobs_eq_ok_iff {c c' : Config} : c.withGlobs = .ok c' ↔
    ∃ globs, readGlobs c.overrides = .ok globs ∧ c' = { c with overrideGlobs := globs } := by
  rw [withGlobs]
  cases readGlobs c.overrides with
  | error e => simp [Except.map]
  | ok globs => simp [Except.map, eq_comm]

theorem eq_some_of_ofJson? {v : JsonValue} {c : Config} (h : ofJson? v = some c) :
    lengthOf? v maxLineLengthOption.default id = some c.maxLineLength ∧
      (itemsOf v "overrides").mapM overrideOf? = some c.overrides ∧
      c.extensionMethods = stringsOf v "extension_methods" := by
  simp only [ofJson?, Option.bind_eq_bind, Option.bind_eq_some_iff, Option.pure_def, Option.some.injEq] at h
  obtain ⟨n, hn, os, hos, rfl⟩ := h
  exact ⟨hn, hos, rfl⟩

/-! ### Lengths and names that are read -/

theorem isLength_of_lengthOf? {α : Type} {v : JsonValue} {default a : α} {ofLength : Nat → α} (hmachine : v.IsMachine)
    (hfits : ∀ w, v.member? "max_line_length" = some w → Schema.positive.Fits w)
    (h : lengthOf? v default ofLength = some a) : a = default ∨ ∃ n, IsLength n ∧ a = ofLength n := by
  rw [lengthOf?] at h
  split at h
  · exact .inl (Option.some.inj h).symm
  · rename_i n hn
    have hpos := Schema.fits_positive_integer_iff.1 (hfits _ hn)
    have hbound : isMachineInteger n = true := by
      cases hmachine.member? hn with
      | integer h => exact h
    rw [isMachineInteger, decide_eq_true_eq] at hbound
    exact .inr ⟨n.toNat, ⟨by omega, by rw [maxNumber]; omega⟩, (Option.some.inj h).symm⟩
  · cases h

theorem member?_of_mem_itemsOf {v w : JsonValue} {name : String} (hw : w ∈ itemsOf v name) :
    ∃ items, v.member? name = some (.array items) ∧ w ∈ items := by
  rw [itemsOf] at hw
  split at hw
  · exact ⟨_, ‹_›, hw⟩
  · cases hw

variable {text : String} {c : Config}

/-- **Every length of a configuration that is read** can be written and read again. -/
theorem isLength_of_ofText (h : ofText text = .ok c) :
    IsLength c.maxLineLength ∧ ∀ o ∈ c.overrides, ∀ n, o.maxLineLength = some n → IsLength n := by
  obtain ⟨value, c₀, hvalue, hfits, hjson, hglobs⟩ := ofText_eq_ok_iff.1 h
  have hmachine : (value.getD (.object [])).IsMachine := by
    cases value with
    | none => exact .object (by simp)
    | some v => exact JsonValue.isMachine_of_readRelaxed? hvalue
  obtain ⟨hlength, hoverrides, -⟩ := eq_some_of_ofJson? hjson
  obtain ⟨globs, -, rfl⟩ := withGlobs_eq_ok_iff.1 hglobs
  constructor
  · rcases isLength_of_lengthOf? hmachine (fun w hw => hfits.member rfl hw) hlength with hdefault | ⟨n, hn, hread⟩
    · rw [hdefault]
      exact ⟨by decide, by decide⟩
    · rw [hread]
      exact hn
  · intro o ho n hn
    obtain ⟨item, hitem, hread⟩ := exists_of_mem_right (mapM_eq_some_iff.1 hoverrides) o ho
    obtain ⟨items, hitems, hmem⟩ := member?_of_mem_itemsOf hitem
    have hitemfits : overrideSchema.Fits item := Schema.fits_listOf_iff.1 (hfits.member rfl hitems) item hmem
    have hitemmachine : item.IsMachine := by
      cases hmachine.member? hitems with
      | array h => exact h item hmem
    obtain ⟨m, hm, rfl⟩ := Option.map_eq_some_iff.1 hread
    rcases isLength_of_lengthOf? hitemmachine (fun w hw => hitemfits.member rfl hw) hm with rfl | ⟨n', hn', rfl⟩
    · cases hn
    · obtain rfl := Option.some.inj hn
      exact hn'

/-- The names of extension methods that are read are not empty. -/
theorem extensionMethods_ne_empty (h : ofText text = .ok c) : ∀ m ∈ c.extensionMethods, m ≠ "" := by
  obtain ⟨value, c₀, -, hfits, hjson, hglobs⟩ := ofText_eq_ok_iff.1 h
  obtain ⟨-, -, hmethods⟩ := eq_some_of_ofJson? hjson
  obtain ⟨globs, -, rfl⟩ := withGlobs_eq_ok_iff.1 hglobs
  intro m hm
  obtain ⟨item, hitem, hread⟩ := List.mem_filterMap.1 (hmethods ▸ hm)
  obtain ⟨items, hitems, hmem⟩ := member?_of_mem_itemsOf hitem
  obtain ⟨s, rfl, hs⟩ := Schema.fits_nonEmptyText_iff.1 (Schema.fits_listOf_iff.1 (hfits.member rfl hitems) item hmem)
  obtain rfl := Option.some.inj hread
  exact hs

end Config

end LayoutLint
