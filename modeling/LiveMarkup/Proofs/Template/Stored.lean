import LiveMarkup.Proofs.Json.Values
import LiveMarkup.Template.Json

/-!
# Stored templates

A template that is stored is read back as it was (`Template.read?_write`).  Each of the records in
it is written as an object with the names of its fields for keys, and is read as the same members
(`record?_shape`); a field that is absent has no member, and is read as absent.
-/

namespace LiveMarkup

open Json (Raw NumberFree shape unescape?_escaped)

/-! ## Records -/

theorem lookup_shape_eq_none {key : String} {members : List (String × Json)}
    (h : key ∉ members.map Prod.fst) :
    (members.map fun (k, v) => (k, v.shape)).lookup key = none := by
  induction members with
  | nil => rfl
  | cons member members ih =>
    obtain ⟨k, v⟩ := member
    rw [List.map_cons, List.mem_cons, not_or] at h
    have hne : (key == k) = false := beq_eq_false_iff_ne.mpr h.1
    rw [List.map_cons, List.lookup_cons, hne, ih h.2]

/-- An object whose keys are known and stand once each is read as its members. -/
theorem record?_shape {names : List String} {members : List (String × Json)}
    (hknown : ∀ k ∈ members.map Prod.fst, k ∈ names) (honce : (members.map Prod.fst).Nodup) :
    (Json.object members).shape.record? names = some (members.map fun (k, v) => (k, v.shape)) := by
  rw [shape, Raw.record?]
  induction members with
  | nil => rfl
  | cons member members ih =>
    obtain ⟨key, value⟩ := member
    rw [List.map_cons, List.nodup_cons] at honce
    have hmembers := ih (fun k hk => hknown k (List.mem_cons_of_mem _ hk)) honce.2
    have hkey : key ∈ names := hknown key List.mem_cons_self
    simp only [Json.memberShapes, Raw.knownMembers?, unescape?_escaped, hmembers, if_pos hkey,
      lookup_shape_eq_none honce.1, Option.bind_eq_bind, Option.bind_some, Option.isSome_none,
      Bool.false_eq_true, if_false, List.map_cons]
    rfl

theorem mapM_shape {α : Type} {write : α → Json} {read : Raw → Option α}
    (h : ∀ a, read (write a).shape = some a) (as : List α) :
    (Json.itemShapes (as.map write)).mapM read = some as := by
  induction as with
  | nil => rfl
  | cons a as ih =>
    rw [List.map_cons, Json.itemShapes, List.mapM_cons, h, ih]
    rfl

@[simp] theorem string?_shape (s : String) : (Json.string s).shape.string? = some s :=
  unescape?_escaped s

@[simp] theorem word?_shape (s : String) : (Json.string s).shape.word? = some s :=
  unescape?_escaped s

@[simp] theorem items?_shape (items : List Json) :
    (Json.array items).shape.items? = some (Json.itemShapes items) := by
  rw [shape, Raw.items?]

@[simp] theorem optional?_none {α : Type} (decode : Raw → Option α) :
    Raw.optional? decode none = some none :=
  rfl

@[simp] theorem optional?_shape (s : String) :
    Raw.optional? Raw.string? (some (Json.string s).shape) = some (some s) := by
  rw [shape, Raw.optional?, Raw.string?, unescape?_escaped]
  · rfl
  · exact Raw.noConfusion

/-! ## The parts of a template -/

@[simp] theorem BlockKind.ofKeyword?_keyword (k : BlockKind) : ofKeyword? k.keyword = some k := by
  cases k <;> decide

theorem Block.ofRaw?_toJson (b : Block) : Block.ofRaw? b.toJson.shape = some b := by
  obtain ⟨kind, condition, content⟩ := b
  rw [Block.ofRaw?, Block.toJson]
  cases condition <;> simp only [optionalMember] <;>
    rw [record?_shape (by simp) (by simp)] <;> simp [List.lookup]

theorem ConditionGroup.ofRaw?_toJson (g : ConditionGroup) :
    ConditionGroup.ofRaw? g.toJson.shape = some g := by
  rw [ConditionGroup.ofRaw?, ConditionGroup.toJson, record?_shape (by simp) (by simp)]
  simp [List.lookup, mapM_shape Block.ofRaw?_toJson]

theorem LoopDefinition.ofRaw?_toJson (l : LoopDefinition) :
    LoopDefinition.ofRaw? l.toJson.shape = some l := by
  rw [LoopDefinition.ofRaw?, LoopDefinition.toJson, record?_shape (by simp) (by simp)]
  simp [List.lookup]

theorem Template.ofRaw?_toJson (t : Template) : Template.ofRaw? t.toJson.shape = some t := by
  obtain ⟨html, conditions, loops, styles⟩ := t
  rw [Template.ofRaw?, Template.toJson]
  cases styles <;> simp only [optionalMember] <;>
    rw [record?_shape (by simp) (by simp)] <;>
    simp [List.lookup, mapM_shape ConditionGroup.ofRaw?_toJson,
      mapM_shape LoopDefinition.ofRaw?_toJson]

/-! ## Templates have no numbers in them -/

theorem numberFree_optionalMember (key : String) (value : Option String) :
    ∀ m ∈ optionalMember key value, NumberFree m.2 := by
  cases value with
  | none => simp [optionalMember]
  | some s => simpa [optionalMember] using NumberFree.string s

theorem Block.numberFree_toJson (b : Block) : NumberFree b.toJson := by
  refine .object ?_
  simp only [List.cons_append, List.forall_mem_cons, List.forall_mem_append]
  exact ⟨.string _, numberFree_optionalMember _ _, .string _, by simp⟩

theorem ConditionGroup.numberFree_toJson (g : ConditionGroup) : NumberFree g.toJson := by
  refine .object ?_
  simp only [List.forall_mem_cons]
  refine ⟨.string _, .array ?_, by simp⟩
  simpa using fun b _ => Block.numberFree_toJson b

theorem LoopDefinition.numberFree_toJson (l : LoopDefinition) : NumberFree l.toJson := by
  refine .object ?_
  simp only [List.forall_mem_cons]
  exact ⟨.string _, .string _, .string _, .string _, by simp⟩

theorem Template.numberFree_toJson (t : Template) : NumberFree t.toJson := by
  refine .object ?_
  simp only [List.forall_mem_cons, List.forall_mem_append]
  refine ⟨⟨.string _, .array ?_, .array ?_, by simp⟩, numberFree_optionalMember _ _⟩
  · simpa using fun g _ => ConditionGroup.numberFree_toJson g
  · simpa using fun l _ => LoopDefinition.numberFree_toJson l

/-- A template that is stored is read back as it was. -/
theorem Template.read?_write (t : Template) : Template.read? t.write = some t := by
  rw [Template.read?, Template.write, Raw.read?_pretty t.numberFree_toJson]
  exact t.ofRaw?_toJson

end LiveMarkup
