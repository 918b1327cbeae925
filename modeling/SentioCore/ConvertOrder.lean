import SentioCore.ConvertModel

/-!
# Values do not depend on the order of maps

What a value becomes, apart from the text of a struct, and whether it can be
converted at all, is the same whatever the order in which its maps are met.
-/

namespace Sentio.ConvertOrder
open OrderedMap ConvertModel List
open BcsModel (Text)
open ByteCodec (bind_ok)

section
variable {F : Type}

def settled (e : Text × Except Err (Any F)) : Text × Option (Any F) := (e.1,e.2.toOption)

def tryPut (m : List (Text × Any F)) (e : Text × Option (Any F)) : Option (List (Text × Any F)) :=
  e.2.map (fun v => put e.1 v m)

theorem buildMap_toOption {entries : List (Text × Except Err (Any F))} :
    (buildMap entries).toOption = attempts tryPut (entries.map settled) (some []) := by
  rw [buildMap,foldlM_toOption,attempts,attempts,foldl_map]
  congr 1
  funext o e
  congr 1
  obtain ⟨k,x⟩ := e
  cases x <;> rfl

theorem tryPut_swap {x y : Text × Option (Any F)} (h : x.1 ≠ y.1) {m : List (Text × Any F)} :
    (tryPut m x).bind (fun n => tryPut n y) = (tryPut m y).bind (fun n => tryPut n x) := by
  cases hx : x.2 <;> cases hy : y.2 <;> simp [tryPut,hx,hy,put_comm _ _ _ (Ne.symm h)]

theorem buildMap_order {l r : List (Text × Except Err (Any F))}
    (h : (l.map settled).Perm (r.map settled)) (hn : (l.map Prod.fst).Nodup) :
    (buildMap l).toOption = (buildMap r).toOption := by
  rw [buildMap_toOption,buildMap_toOption]
  refine attempts_perm h ?_ _
  intro x hx y hy m
  by_cases hk : x.1 = y.1
  · have hnodup : ((l.map settled).map Prod.fst).Nodup := by
      rw [map_map]
      exact hn
    rw [inj_on_of_nodup_map hnodup hx hy hk]
  · exact tryPut_swap hk

theorem fieldsToAny_names {order : Order} {t : ℤ} {place : List Text} {fs : RichFields F} :
    (fieldsToAny order t place fs).map Prod.fst = fs.names := by
  match fs with
  | .nil => rfl
  | .cons name v rest =>
    rw [fieldsToAny,map_cons,fieldsToAny_names,RichFields.names]

section
variable (o q : Order) (t : ℤ)

theorem toOption_map {α β : Type} (f : α → β) (x : Except Err α) :
    (x.map f).toOption = x.toOption.map f := by
  cases x <;> rfl

mutual

theorem richValueToAny_order : (v : RichValue F) → v.Legal → ∀ place,
    (richValueToAny o t place v).toOption = (richValueToAny q t place v).toOption
  | .list values => by
    intro h place
    rw [richValueToAny,richValueToAny,toOption_bind,toOption_bind,
      listToAny_order values h (text "list"::place)]
  | .struct fields => by
    intro h place
    rw [richValueToAny,richValueToAny,toOption_bind,toOption_bind]
    have hsame := fieldsToAny_order fields h.2 place
    have ho := ((o.arrange_perm place (fieldsToAny o t place fields)).map settled)
    have hq := ((q.arrange_perm place (fieldsToAny q t place fields)).map settled)
    have hn : ((o.arrange place (fieldsToAny o t place fields)).map Prod.fst).Nodup := by
      rw [((o.arrange_perm place (fieldsToAny o t place fields)).map Prod.fst).nodup_iff,
        fieldsToAny_names]
      exact h.1.imp ne_of_lt
    rw [buildMap_order (ho.trans (hsame ▸ hq.symm)) hn]
  | .unset | .null | .string _ | .bytes _ | .bool _ | .int _ | .int64 _ | .timestamp _ | .float _
  | .bigint _ | .bigdecimal _ | .token _ => fun _ _ => rfl
theorem listToAny_order : (l : RichList F) → l.Legal → ∀ place,
    (listToAny o t place l).toOption = (listToAny q t place l).toOption
  | .nil => fun _ _ => rfl
  | .cons v rest => by
    intro h place
    rw [listToAny,listToAny,toOption_bind,toOption_bind,richValueToAny_order v h.1 place]
    congr 1
    funext a
    rw [toOption_bind,toOption_bind,listToAny_order rest h.2]
theorem fieldsToAny_order : (fs : RichFields F) → fs.Legal → ∀ place,
    (fieldsToAny o t place fs).map settled = (fieldsToAny q t place fs).map settled
  | .nil => fun _ _ => rfl
  | .cons name v rest => by
    intro h place
    rw [fieldsToAny,fieldsToAny,map_cons,map_cons,fieldsToAny_order rest h.2 place,
      settled,settled,toOption_map,toOption_map,richValueToAny_order v h.1]
end

theorem update_order : (fs : RichFields F) → fs.Legal → ∀ place pre r,
    (NestedRow.update o t place pre fs r).toOption =
      (NestedRow.update q t place pre fs r).toOption
  | .nil => fun _ _ _ _ => rfl
  | .cons name v rest => by
    intro h place pre r
    have hv := richValueToAny_order o q t v h.1 (name::place)
    have hrest := update_order rest h.2 place pre
    cases v with
    | null => exact hrest r
    | struct fields =>
      have hin := update_order fields h.1.2 (text "struct"::name::place) (nestedName pre name)
      rw [NestedRow.update,NestedRow.update,toOption_bind,toOption_bind,hv]
      congr 1
      funext a
      rw [toOption_bind,toOption_bind,hin]
      congr 1
      funext inner
      exact hrest inner
    | _ =>
      rw [NestedRow.update,NestedRow.update,toOption_bind,toOption_bind,hv]
      · congr 1
        funext a
        exact hrest _
      all_goals simp

end

/-- The text of a struct is the same in all orders. -/
def StableText (formats : Formats F) (t : ℤ) (place : List Text) (fs : RichFields F) : Prop :=
  ∀ o q : Order, (structText formats o t place fs).toOption.map Prod.fst =
    (structText formats q t place fs).toOption.map Prod.fst

variable {fs : RichFields F}

theorem structText_schema (formats : Formats F) (o q : Order) (t : ℤ) (place : List Text)
    (h : fs.Legal) :
    (structText formats o t place fs).toOption.map Prod.snd =
      (structText formats q t place fs).toOption.map Prod.snd := by
  rw [structText,structText,toOption_bind,toOption_bind,update_order o q t fs h]
  cases (NestedRow.update q t place [] fs emptyRow).toOption <;> rfl

variable {t : ℤ} {formats : Formats F} {place : List Text} {q o : Order}

theorem structText_order (h : fs.Legal) (hs : StableText formats t place fs) :
    (structText formats o t place fs).toOption = (structText formats q t place fs).toOption := by
  have hfst := hs o q
  have hsnd := structText_schema formats o q t place h
  cases ho : (structText formats o t place fs).toOption <;>
    cases hq : (structText formats q t place fs).toOption <;> simp_all [Prod.ext_iff]

variable {v : RichValue F}

theorem wrappedValue_order (h : v.Legal) :
    (wrappedValue o t place v).toOption = (wrappedValue q t place v).toOption := by
  rw [wrappedValue,wrappedValue,toOption_bind,toOption_bind,
    update_order o q t (wrapped v) ⟨h,trivial⟩]

/-- Every struct that is put into a row has a text that is the same in all orders. -/
def RichValue.Stable (formats : Formats F) (t : ℤ) (place : List Text) : RichValue F → Prop
  | .struct fields => StableText formats t place fields
  | _ => True

theorem eventValue_order (formats : Formats F) (o q : Order) (t : ℤ) (place : List Text)
    (column : Text) (v : RichValue F) (h : v.Legal) (hs : RichValue.Stable formats t place v) :
    (eventValue formats o t place column v).toOption =
      (eventValue formats q t place column v).toOption := by
  cases v with
  | list | token =>
    rw [eventValue,eventValue,toOption_bind,toOption_bind,wrappedValue_order h]
  | struct fields =>
    rw [eventValue,eventValue,toOption_bind,toOption_bind,structText_order h.2 hs]
  | _ => rfl

theorem set_sorted {r : NestedRow F} {pre name : Text} {a : Any F × FieldType}
    (h : Sorted r.structSchema) : Sorted (r.set pre name a).structSchema :=
  put_sorted h

theorem update_sorted : (fs : RichFields F) → ∀ place pre r out,
    NestedRow.update o t place pre fs r = .ok out → Sorted r.structSchema →
    Sorted out.structSchema
  | .nil => by
    intro place pre r out h hs
    cases h
    exact hs
  | .cons name v rest => by
    intro place pre r out h hs
    cases v with
    | null => exact update_sorted rest place pre r out h hs
    | struct fields =>
      rw [NestedRow.update] at h
      obtain ⟨a,-,h⟩ := bind_ok h
      obtain ⟨inner,hinner,h⟩ := bind_ok h
      have hin := update_sorted fields _ _ _ inner hinner (set_sorted hs)
      exact update_sorted rest place pre inner out h hin
    | _ =>
      rw [NestedRow.update] at h
      · obtain ⟨a,-,h⟩ := bind_ok h
        exact update_sorted rest place pre _ out h (set_sorted hs)
      all_goals simp

theorem eventValue_sorted {column : Text} {s : Stored F}
    (h : eventValue formats o t place column v = .ok s) : Sorted s.nestedStructSchema := by
  cases v with
  | struct fields =>
    obtain ⟨p,hp,h⟩ := bind_ok h
    cases h
    obtain ⟨r,hr,hp⟩ := bind_ok hp
    cases hp
    exact update_sorted fields _ _ _ r hr List.Pairwise.nil
  | list | token =>
    obtain ⟨a,-,h⟩ := bind_ok h
    cases h
    exact List.Pairwise.nil
  | bigint | bigdecimal =>
    rw [eventValue] at h
    split at h
    · cases h
    · cases h
      exact List.Pairwise.nil
  | _ =>
    cases h
    all_goals exact List.Pairwise.nil

theorem mergeMap_perm {dst l r : List (Text × FieldType)} (h : l.Perm r)
    (hn : (l.map Prod.fst).Nodup) :
    Field.mergeMapIfNotExist dst l = Field.mergeMapIfNotExist dst r := by
  apply h.foldl_eq'
  intro x hx y hy m
  by_cases hk : x.1 = y.1
  · rw [inj_on_of_nodup_map hn hx hy hk]
  have hx' : has (put y.1 y.2 m) x.1 = has m x.1 := has_put_other m y.1 x.1 y.2 hk
  have hy' : has (put x.1 x.2 m) y.1 = has m y.1 := has_put_other m x.1 y.1 x.2 (Ne.symm hk)
  cases hmx : has m x.1 <;> cases hmy : has m y.1 <;>
    simp [hmx,hmy,hx',hy',put_comm _ _ _ (Ne.symm hk)]

theorem arrange_nil {V : Type} : o.arrange place ([] : List (Text × V)) = [] :=
  perm_nil.mp (o.arrange_perm place [])

variable {field : Field} {f : Field}

theorem merge_order (hs : Sorted field.nestedStructSchema) (hi : field.nestedIndex = []) :
    f.merge o place field = f.merge q place field := by
  have hschema : Field.mergeMapIfNotExist f.nestedStructSchema
      (o.arrange (text "schema"::place) field.nestedStructSchema) =
      Field.mergeMapIfNotExist f.nestedStructSchema
        (q.arrange (text "schema"::place) field.nestedStructSchema) := by
    refine mergeMap_perm ((o.arrange_perm _ _).trans (q.arrange_perm _ _).symm) ?_
    rw [((o.arrange_perm _ _).map Prod.fst).nodup_iff]
    exact sorted_nodup hs
  rw [Field.merge,Field.merge,hschema,hi,arrange_nil,arrange_nil]

theorem mergeField_order (o q : Order) (fields : List (Text × Field))
    (hs : Sorted field.nestedStructSchema) (hi : field.nestedIndex = []) :
    mergeField o fields field = mergeField q fields field := by
  rw [mergeField,mergeField]
  cases find fields field.name with
  | none => rfl
  | some exist =>
    dsimp only
    rw [merge_order hs hi]

def merged (o : Order) (exist : Option Field) (field : Field) : Option Field :=
  match exist with
  | none => some field
  | some e => if e.compatible field then some (e.merge o [field.name] field) else none

theorem mergeField_toOption {fields : List (Text × Field)} : (mergeField o fields field).toOption =
      (merged o (find fields field.name) field).map (fun m => put field.name m fields) := by
  rw [mergeField]
  cases find fields field.name with
  | none => rfl
  | some exist =>
    dsimp only [merged]
    split <;> rfl

def applyPlan (o : Order) (d : Draft F) : Option (Field × Any F) → Except Err (Draft F)
  | none => pure d
  | some (field,value) => do
    let fields ← mergeField o d.fields field
    pure ⟨put field.name value d.row,fields⟩

theorem applyPlan_toOption {d : Draft F} {v : Any F} : (applyPlan o d (some (f,v))).toOption =
      (merged o (find d.fields f.name) f).map
        (fun m => ⟨put f.name v d.row,put f.name m d.fields⟩) := by
  rw [applyPlan,toOption_bind,mergeField_toOption]
  cases merged o (find d.fields f.name) f <;> rfl

theorem applyPlan_swap_some {d : Draft F} {g : Field} {v w : Any F} (h : f.name ≠ g.name) :
    (applyPlan o d (some (f,v))).toOption.bind
        (fun e => (applyPlan o e (some (g,w))).toOption) =
      (applyPlan o d (some (g,w))).toOption.bind
        (fun e => (applyPlan o e (some (f,v))).toOption) := by
  simp only [applyPlan_toOption,Option.bind_map,Function.comp_def,find_put,if_neg h,
    if_neg (Ne.symm h),put_comm _ _ _ h]
  cases merged o (find d.fields f.name) f <;> cases merged o (find d.fields g.name) g <;> rfl

end
end Sentio.ConvertOrder
