import LosslessGo.Symbol.Declarations
import Mathlib.Data.List.Nodup

/-!
# The declarations of a file

`Construct.parts` lists what a construct is made of, and `Construct.Holds` follows it down to any
field. The functions that collect declarations have one clause for each construct; each of them gives
the declarations of the construct itself, then those of its parts (`Construct.declared_eq`). So they
find every field, in the order of the source, and nothing else (`Construct.declared_eq_fields`).

* `lookup_of_nodup`: an entry is found under its key where keys do not repeat.
* `Declarations.ofFile_complete`: what is known of a position is the type of the field whose name stands
  there.
-/

namespace LosslessGo

namespace Go

/-- A construct of any sort; names, literals and tokens stand in no list of parts. -/
inductive Construct where
  | field (f : Field)
  | fieldList (l : FieldList)
  | funcType (t : FuncType)
  | block (b : Block)
  | call (c : Call)
  | genDecl (d : GenDecl)
  | expr (x : Expr)
  | stmt (s : Stmt)
  | spec (s : Spec)
  | decl (d : Decl)

namespace Construct

/-- Parts of one sort, as many as there are. -/
def exprs (xs : List Expr) : List Construct := xs.map expr

def exprs? (x : Option Expr) : List Construct := x.toList.map expr

def stmts (ss : List Stmt) : List Construct := ss.map stmt

def stmts? (s : Option Stmt) : List Construct := s.toList.map stmt

def blocks? (b : Option Block) : List Construct := b.toList.map block

def fieldLists? (l : Option FieldList) : List Construct := l.toList.map fieldList

/-- The constructs that an expression is made of. -/
def partsOfExpr : Expr → List Construct
  | .bad .. | .ident _ | .literal _ => []
  | .ellipsis _ elem => exprs? elem
  | .funcLit type body => [.funcType type, .block body]
  | .composite type _ elems _ => exprs? type ++ exprs elems
  | .paren _ x _ => [.expr x]
  | .selector x _ => [.expr x]
  | .index x _ i _ => [.expr x, .expr i]
  | .indexList x _ indices _ => .expr x :: exprs indices
  | .slice x _ low high max _ _ => .expr x :: (exprs? low ++ exprs? high ++ exprs? max)
  | .typeAssert x _ type _ => .expr x :: exprs? type
  | .call c => [.call c]
  | .star _ x => [.expr x]
  | .unary _ _ x => [.expr x]
  | .binary x _ _ y => [.expr x, .expr y]
  | .keyValue key _ value => [.expr key, .expr value]
  | .arrayType _ len elem => exprs? len ++ [.expr elem]
  | .structType _ fields => [.fieldList fields]
  | .funcType type => [.funcType type]
  | .interfaceType _ methods => [.fieldList methods]
  | .mapType _ key value => [.expr key, .expr value]
  | .chanType _ _ _ value => [.expr value]

/-- The constructs that a statement is made of. -/
def partsOfStmt : Stmt → List Construct
  | .bad .. | .empty .. | .branch .. => []
  | .decl d => [.genDecl d]
  | .labeled _ _ s => [.stmt s]
  | .expr x => [.expr x]
  | .send chan _ value => [.expr chan, .expr value]
  | .incDec x _ _ => [.expr x]
  | .assign lhs _ _ rhs => exprs lhs ++ exprs rhs
  | .go _ c => [.call c]
  | .defer _ c => [.call c]
  | .ret _ results => exprs results
  | .block b => [.block b]
  | .ite _ init cond body otherwise =>
    stmts? init ++ [.expr cond, .block body] ++ stmts? otherwise
  | .caseClause _ xs _ body => exprs xs ++ stmts body
  | .switch _ init tag body => stmts? init ++ exprs? tag ++ [.block body]
  | .typeSwitch _ init assign body => stmts? init ++ [.stmt assign, .block body]
  | .commClause _ comm _ body => stmts? comm ++ stmts body
  | .select _ body => [.block body]
  | .forLoop _ init cond post body => stmts? init ++ exprs? cond ++ stmts? post ++ [.block body]
  | .range _ key value _ _ _ x body => exprs? key ++ exprs? value ++ [.expr x, .block body]

/-- The constructs that a construct is made of, in source order. -/
def parts : Construct → List Construct
  | field f => [.expr f.type]
  | fieldList l => l.fields.map field
  | funcType t => fieldLists? t.typeParams ++ .fieldList t.params :: fieldLists? t.results
  | block b => stmts b.stmts
  | call c => .expr c.callee :: exprs c.args
  | genDecl d => d.specs.map spec
  | expr x => partsOfExpr x
  | stmt s => partsOfStmt s
  | spec (.importSpec ..) => []
  | spec (.value _ type values) => exprs? type ++ exprs values
  | spec (.type _ typeParams _ type) => fieldLists? typeParams ++ [.expr type]
  | decl (.bad ..) => []
  | decl (.gen d) => [.genDecl d]
  | decl (.func recv _ type body) =>
    fieldLists? recv ++ .funcType type :: blocks? body

/-- A field occurs in a construct: it is that construct, or occurs in a part of it. -/
inductive Holds (f : Field) : Construct → Prop
  | here : Holds f (.field f)
  | under {c p : Construct} : p ∈ c.parts → Holds f p → Holds f c

/-! ## Parts are smaller -/

section

variable {α : Type} [SizeOf α] {f : α → Construct} {p : Construct}

theorem sizeOf_of_mem_map (hf : ∀ x, sizeOf (f x) = 1 + sizeOf x) {xs : List α} (h : p ∈ xs.map f) :
    sizeOf p < 1 + sizeOf xs := by
  obtain ⟨x, hx, rfl⟩ := List.mem_map.mp h
  have := List.sizeOf_lt_of_mem hx
  have := hf x
  omega

theorem sizeOf_of_mem_toList_map (hf : ∀ x, sizeOf (f x) = 1 + sizeOf x) {x : Option α}
    (h : p ∈ x.toList.map f) : sizeOf p < 1 + sizeOf x := by
  cases x with
  | none => cases h
  | some x =>
    obtain rfl := List.mem_singleton.mp h
    rw [hf, Option.some.sizeOf_spec]
    omega

end

variable {c p : Construct}

@[grind →]
theorem sizeOf_of_mem_exprs {xs : List Expr} : p ∈ exprs xs → sizeOf p < 1 + sizeOf xs :=
  sizeOf_of_mem_map expr.sizeOf_spec

@[grind →]
theorem sizeOf_of_mem_exprs? {x : Option Expr} : p ∈ exprs? x → sizeOf p < 1 + sizeOf x :=
  sizeOf_of_mem_toList_map expr.sizeOf_spec

@[grind →]
theorem sizeOf_of_mem_stmts {ss : List Stmt} : p ∈ stmts ss → sizeOf p < 1 + sizeOf ss :=
  sizeOf_of_mem_map stmt.sizeOf_spec

@[grind →]
theorem sizeOf_of_mem_stmts? {s : Option Stmt} : p ∈ stmts? s → sizeOf p < 1 + sizeOf s :=
  sizeOf_of_mem_toList_map stmt.sizeOf_spec

@[grind →]
theorem sizeOf_of_mem_blocks? {b : Option Block} : p ∈ blocks? b → sizeOf p < 1 + sizeOf b :=
  sizeOf_of_mem_toList_map block.sizeOf_spec

@[grind →]
theorem sizeOf_of_mem_fieldLists? {l : Option FieldList} :
    p ∈ fieldLists? l → sizeOf p < 1 + sizeOf l :=
  sizeOf_of_mem_toList_map fieldList.sizeOf_spec

theorem sizeOf_of_mem_partsOfExpr {x : Expr} (h : p ∈ partsOfExpr x) : sizeOf p < 1 + sizeOf x := by
  cases x <;> grind [partsOfExpr]

theorem sizeOf_of_mem_partsOfStmt {s : Stmt} (h : p ∈ partsOfStmt s) : sizeOf p < 1 + sizeOf s := by
  cases s <;> grind [partsOfStmt]

theorem sizeOf_lt_of_mem_parts (h : p ∈ c.parts) : sizeOf p < sizeOf c := by
  cases c with
  | expr x => exact expr.sizeOf_spec x ▸ sizeOf_of_mem_partsOfExpr h
  | stmt s => exact stmt.sizeOf_spec s ▸ sizeOf_of_mem_partsOfStmt h
  | field f =>
    obtain ⟨_, _, _⟩ := f
    grind [parts]
  | fieldList l =>
    obtain ⟨_, _, _⟩ := l
    have := sizeOf_of_mem_map field.sizeOf_spec h
    grind
  | funcType t =>
    obtain ⟨_, _, _, _⟩ := t
    grind [parts]
  | block b =>
    obtain ⟨_, _, _⟩ := b
    grind [parts]
  | call c =>
    obtain ⟨_, _, _, _, _⟩ := c
    grind [parts]
  | genDecl d =>
    obtain ⟨_, _, _, _, _⟩ := d
    have := sizeOf_of_mem_map spec.sizeOf_spec h
    grind
  | spec s => cases s <;> grind [parts]
  | decl d => cases d <;> grind [parts]

/-! ## The fields of a construct -/

/-- The field that a construct is. -/
def fieldsHere : Construct → List Field
  | field f => [f]
  | _ => []

/-- The fields that occur in a construct, in source order. -/
def fields (c : Construct) : List Field :=
  c.fieldsHere ++ c.parts.attach.flatMap fun p => fields p.1
termination_by sizeOf c
decreasing_by exact sizeOf_lt_of_mem_parts p.2

theorem fields_eq (c : Construct) : c.fields = c.fieldsHere ++ c.parts.flatMap fields := by
  rw [fields, List.flatMap_subtype]
  · rw [List.unattach_attach]
  · exact fun _ _ => rfl

theorem mem_fieldsHere {f : Field} : f ∈ c.fieldsHere ↔ c = .field f := by
  cases c <;> simp [fieldsHere, eq_comm]

/-- The fields listed are those that occur. -/
theorem mem_fields {f : Field} : f ∈ c.fields ↔ c.Holds f := by
  constructor
  · induction hn : sizeOf c using Nat.strongRecOn generalizing c with
    | ind n ih =>
      subst hn
      rw [fields_eq, List.mem_append, mem_fieldsHere, List.mem_flatMap]
      rintro (rfl | ⟨p, hp, hf⟩)
      · exact .here
      · exact .under hp (ih _ (sizeOf_lt_of_mem_parts hp) rfl hf)
  · intro h
    induction h with
    | here => rw [fields_eq]; exact List.mem_append_left _ (mem_fieldsHere.mpr rfl)
    | under hp _ ih => rw [fields_eq]; exact List.mem_append_right _ (List.mem_flatMap.mpr ⟨_, hp, ih⟩)

/-! ## The declarations collected -/

/-- What is collected from a construct of any sort. -/
def declared : Construct → List Declaration
  | field f => declaredInField f
  | fieldList l => declaredInList l
  | funcType t => declaredInType t
  | block b => declaredInBlock b
  | call c => declaredInCall c
  | genDecl d => declaredInGenDecl d
  | expr x => declaredIn x
  | stmt s => declaredInStmt s
  | spec s => declaredInSpec s
  | decl d => declaredInDecl d

theorem declaredInFields_eq (fs : List Field) :
    declaredInFields fs = (fs.map field).flatMap declared := by
  induction fs with
  | nil => rfl
  | cons f fs ih => rw [declaredInFields, ih]; rfl

theorem declaredInExprs_eq (xs : List Expr) : declaredInExprs xs = (exprs xs).flatMap declared := by
  induction xs with
  | nil => rfl
  | cons x xs ih => rw [declaredInExprs, ih]; rfl

theorem declaredInStmts_eq (ss : List Stmt) : declaredInStmts ss = (stmts ss).flatMap declared := by
  induction ss with
  | nil => rfl
  | cons s ss ih => rw [declaredInStmts, ih]; rfl

theorem declaredInSpecs_eq (ss : List Spec) :
    declaredInSpecs ss = (ss.map spec).flatMap declared := by
  induction ss with
  | nil => rfl
  | cons s ss ih => rw [declaredInSpecs, ih]; rfl

theorem declaredInOption_eq (x : Option Expr) :
    declaredInOption x = (exprs? x).flatMap declared := by
  cases x <;> simp [declaredInOption, exprs?, declared]

theorem declaredInOptionStmt_eq (s : Option Stmt) :
    declaredInOptionStmt s = (stmts? s).flatMap declared := by
  cases s <;> simp [declaredInOptionStmt, stmts?, declared]

theorem declaredInOptionList_eq (l : Option FieldList) :
    declaredInOptionList l = (fieldLists? l).flatMap declared := by
  cases l <;> simp [declaredInOptionList, fieldLists?, declared]

theorem declaredInOptionBlock_eq (b : Option Block) :
    (b.map declaredInBlock).getD [] = (blocks? b).flatMap declared := by
  cases b <;> simp [blocks?, declared]

theorem declaredIn_eq (x : Expr) : declaredIn x = (partsOfExpr x).flatMap declared := by
  cases x <;>
    simp [declaredIn, partsOfExpr, declared, declaredInExprs_eq, declaredInOption_eq]

theorem declaredInStmt_eq (s : Stmt) : declaredInStmt s = (partsOfStmt s).flatMap declared := by
  cases s <;>
    simp [declaredInStmt, partsOfStmt, declared, declaredInExprs_eq, declaredInOption_eq,
      declaredInStmts_eq, declaredInOptionStmt_eq]

theorem declaredInSpec_eq (s : Spec) :
    declaredInSpec s = (spec s).parts.flatMap declared := by
  cases s <;>
    simp [declaredInSpec, parts, declared, declaredInExprs_eq, declaredInOption_eq,
      declaredInOptionList_eq]

theorem declaredInDecl_eq (d : Decl) : declaredInDecl d = (decl d).parts.flatMap declared := by
  cases d <;>
    simp [declaredInDecl, parts, declared, declaredInOptionList_eq, declaredInOptionBlock_eq]

/-- What is collected from a construct is its own declarations, then those of its parts. -/
theorem declared_eq (c : Construct) :
    c.declared = c.fieldsHere.flatMap declarationsOf ++ c.parts.flatMap declared := by
  cases c with
  | field f =>
    obtain ⟨_, _, _⟩ := f
    simp [declared, declaredInField, fieldsHere, parts]
  | fieldList l =>
    obtain ⟨_, fields, _⟩ := l
    simpa [declared, declaredInList, fieldsHere, parts] using declaredInFields_eq fields
  | funcType t =>
    obtain ⟨_, _, _, _⟩ := t
    simp [declared, declaredInType, fieldsHere, parts, declaredInOptionList_eq]
  | block b =>
    obtain ⟨_, stmts, _⟩ := b
    simpa [declared, declaredInBlock, fieldsHere, parts] using declaredInStmts_eq stmts
  | call c =>
    obtain ⟨_, _, _, _, _⟩ := c
    simp [declared, declaredInCall, fieldsHere, parts, declaredInExprs_eq]
  | genDecl d =>
    obtain ⟨_, _, _, specs, _⟩ := d
    simpa [declared, declaredInGenDecl, fieldsHere, parts] using declaredInSpecs_eq specs
  | expr x => exact declaredIn_eq x
  | stmt s => exact declaredInStmt_eq s
  | spec s => exact declaredInSpec_eq s
  | decl d => exact declaredInDecl_eq d

/-- The declarations collected are those of the fields that occur, in their order. -/
theorem declared_eq_fields (c : Construct) : c.declared = c.fields.flatMap declarationsOf := by
  induction hn : sizeOf c using Nat.strongRecOn generalizing c with
  | ind n ih =>
    subst hn
    rw [declared_eq, fields_eq, List.flatMap_append, List.flatMap_assoc]
    congr 1
    exact List.flatMap_congr fun p hp => ih _ (sizeOf_lt_of_mem_parts hp) p rfl

end Construct

namespace File

/-- The fields that occur in the declarations of a file, in source order. -/
def fields (file : File) : List Field := file.decls.flatMap fun d => (Construct.decl d).fields

/-- The names of these fields. -/
def fieldNames (file : File) : List Ident := file.fields.flatMap (·.names)

/-- A field occurs anywhere in the declarations of a file. -/
def Holds (file : File) (f : Field) : Prop := ∃ d ∈ file.decls, (Construct.decl d).Holds f

theorem mem_fields {file : File} {f : Field} : f ∈ file.fields ↔ file.Holds f := by
  simp only [fields, Holds, List.mem_flatMap, Construct.mem_fields]

theorem declared_eq_fields (file : File) :
    file.decls.flatMap declaredInDecl = file.fields.flatMap declarationsOf := by
  rw [fields, List.flatMap_assoc]
  exact List.flatMap_congr fun d _ => Construct.declared_eq_fields (.decl d)

/-- The positions declared are those of the names. -/
theorem pos_declared (file : File) :
    (file.decls.flatMap declaredInDecl).map (·.pos) = file.fieldNames.map (·.pos) := by
  rw [declared_eq_fields, fieldNames, List.map_flatMap, List.map_flatMap]
  exact List.flatMap_congr fun f _ => List.map_map

end File

end Go

open Go

/-- An entry is found under its key where keys do not repeat. -/
theorem lookup_of_nodup {α β : Type} [BEq α] [LawfulBEq α] {entries : List (α × β)} {k : α} {v : β}
    (h : (entries.map Prod.fst).Nodup) (hmem : (k, v) ∈ entries) : entries.lookup k = some v := by
  obtain ⟨before, after, rfl⟩ := List.append_of_mem hmem
  rw [List.map_append, List.map_cons, List.nodup_append] at h
  refine List.lookup_eq_some_iff.mpr ⟨before, after, rfl, fun p hp => bne_iff_ne.mpr ?_⟩
  exact (h.2.2 p.1 (List.mem_map_of_mem hp) k List.mem_cons_self).symm

namespace Declarations

variable {file : File}

theorem mem_spans {entry : Pos × Pos × Pos} : entry ∈ (ofFile file).spans ↔
    ∃ f, file.Holds f ∧ ∃ x ∈ f.names, (x.pos, f.type.start, f.type.stop) = entry := by
  rw [ofFile, List.mem_reverse, File.declared_eq_fields, List.map_flatMap]
  simp only [List.mem_flatMap, File.mem_fields, declarationsOf, List.map_map, List.mem_map,
    Function.comp_apply]

/-- The entries have the positions of the names as keys. -/
theorem nodup_spans (h : (file.fieldNames.map (·.pos)).Nodup) :
    ((ofFile file).spans.map Prod.fst).Nodup := by
  rw [ofFile, List.map_reverse, List.nodup_reverse, List.map_map]
  exact file.pos_declared ▸ h

/-- Where no two field names of a file share a position, the position of each name of each field that
occurs anywhere in the declarations has an entry, no other position has one, and the text of the type
there is the source between start and stop of the field's type, if that is a slice. -/
theorem ofFile_complete (file : File) (hnames : (file.fieldNames.map (·.pos)).Nodup) :
    (∀ pos, ((ofFile file).spans.lookup pos).isSome ↔
        ∃ f, file.Holds f ∧ ∃ x ∈ f.names, x.pos = pos) ∧
      ∀ f, file.Holds f → ∀ x ∈ f.names, ∀ source,
        (ofFile file).typeText? source x.pos =
          Text.slice? source f.type.start.toNat f.type.stop.toNat := by
  refine ⟨fun pos => ?_, fun f hf x hx source => ?_⟩
  · rw [List.lookup_isSome_iff]
    constructor
    · rintro ⟨entry, hentry, hpos⟩
      obtain ⟨f, hf, x, hx, rfl⟩ := mem_spans.mp hentry
      exact ⟨f, hf, x, hx, (eq_of_beq hpos).symm⟩
    · rintro ⟨f, hf, x, hx, rfl⟩
      exact ⟨_, mem_spans.mpr ⟨f, hf, x, hx, rfl⟩, beq_self_eq_true _⟩
  · have hlookup := lookup_of_nodup (nodup_spans hnames) (mem_spans.mpr ⟨f, hf, x, hx, rfl⟩)
    rw [typeText?, hlookup, Option.bind_some]

/-- A closure with a parameter of a structure type. -/
def nestedSource : String :=
  "func f() \x7b g := func(p struct\x7b x T \x7d) \x7b\x7d \x7d"

def nestedField : Field := ⟨[⟨31, "x", none⟩], .ident ⟨33, "T", none⟩, none⟩

def nestedParameter : Field :=
  ⟨[⟨21, "p", none⟩], .structType 23 ⟨some 29, [nestedField], some 35⟩, none⟩

def nestedFile : File where
  packagePos := 0
  name := ⟨0, "p", none⟩
  decls := [.func none ⟨5, "f", none⟩ ⟨some 0, none, ⟨some 6, [], some 7⟩, none⟩ <| some
    ⟨9, [.assign [.ident ⟨11, "g", none⟩] 13 .define
      [.funcLit ⟨some 16, none, ⟨some 20, [nestedParameter], some 36⟩, none⟩ ⟨38, [], 39⟩]], 41⟩]
  comments := []

theorem holds_nestedParameter {f : Field} (h : (Construct.field nestedParameter).Holds f) :
    nestedFile.Holds f := by
  have hlist : (Construct.fieldList ⟨some 20, [nestedParameter], some 36⟩).Holds f :=
    .under (List.mem_of_getElem? (i := 0) rfl) h
  have htype : (Construct.funcType
      ⟨some 16, none, ⟨some 20, [nestedParameter], some 36⟩, none⟩).Holds f :=
    .under (List.mem_of_getElem? (i := 0) rfl) hlist
  refine ⟨_, List.mem_singleton_self _, .under (List.mem_of_getElem? (i := 1) rfl) ?body⟩
  refine .under (List.mem_of_getElem? (i := 0) rfl) (.under (List.mem_of_getElem? (i := 1) rfl) ?lit)
  exact .under (List.mem_of_getElem? (i := 0) rfl) htype

theorem ofFile_complete_nestedFile :
    (ofFile nestedFile).typeText? nestedSource 21 = some "struct\x7b x T \x7d" ∧
      (ofFile nestedFile).typeText? nestedSource 31 = some "T" ∧
      ¬∃ f, nestedFile.Holds f ∧ ∃ x ∈ f.names, x.pos = 11 := by
  have hnames : (nestedFile.fieldNames.map (·.pos)).Nodup := by
    rw [← File.pos_declared]
    decide +kernel
  have h := ofFile_complete nestedFile hnames
  have houter : nestedFile.Holds nestedParameter := holds_nestedParameter .here
  have hinner : nestedFile.Holds nestedField := holds_nestedParameter <|
    .under (List.mem_of_getElem? (i := 0) rfl) <| .under (List.mem_of_getElem? (i := 0) rfl) <|
      .under (List.mem_of_getElem? (i := 0) rfl) .here
  refine ⟨?_, ?_, mt (h.1 11).mpr (by decide +kernel)⟩
  · rw [h.2 _ houter ⟨21, "p", none⟩ List.mem_cons_self]
    decide +kernel
  · rw [h.2 _ hinner ⟨31, "x", none⟩ List.mem_cons_self]
    decide +kernel

end Declarations

end LosslessGo
