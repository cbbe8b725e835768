import RouterShift.Json.Value

/-! Fields and values. What keys and lookups come to after an insertion; and values that are settled,
    which is to say that no object in them has a key twice: settling makes any value one and leaves
    those that are alone. -/

namespace RouterShift.Json

namespace Fields

variable {fields : Fields} {key other : String} {v value : Value}

theorem get?_cons (k : String) (w : Value) (fields : Fields) (key : String) :
    get? ((k, w) :: fields) key = if k = key then some w else get? fields key := rfl

/-- What an insertion leaves: the new field, and fields that were there. -/
theorem mem_insert {p : String × Value} (h : p ∈ fields.insert key value) :
    p = (key, value) ∨ p ∈ fields := by
  induction fields with
  | nil => exact .inl (List.mem_singleton.1 h)
  | cons field fields ih =>
    obtain ⟨k, w⟩ := field
    rw [insert] at h
    split at h
    · rename_i hk
      rcases List.mem_cons.1 h with rfl | h
      · exact .inl (by rw [hk])
      · exact .inr (List.mem_cons_of_mem _ h)
    · rcases List.mem_cons.1 h with rfl | h
      · exact .inr List.mem_cons_self
      · exact (ih h).imp_right (List.mem_cons_of_mem _)

/-- A new key goes last. -/
theorem insert_of_notMem (h : key ∉ fields.keys) :
    fields.insert key value = fields ++ [(key, value)] := by
  induction fields with
  | nil => rfl
  | cons field fields ih =>
    obtain ⟨k, w⟩ := field
    rw [keys, List.map_cons, List.mem_cons, not_or, ← keys] at h
    rw [insert, if_neg (Ne.symm h.1), ih h.2]
    rfl

theorem keys_insert : (fields.insert key value).keys =
    if key ∈ fields.keys then fields.keys else fields.keys ++ [key] := by
  by_cases h : key ∈ fields.keys
  · rw [if_pos h]
    induction fields with
    | nil => cases h
    | cons field fields ih =>
      obtain ⟨k, w⟩ := field
      rw [insert]
      split
      · rfl
      · rename_i hk
        have htail : key ∈ keys fields := (List.mem_cons.1 h).resolve_left (Ne.symm hk)
        exact congrArg (k :: ·) (ih htail)
  · rw [if_neg h, insert_of_notMem h, keys, List.map_append]
    rfl

theorem nodup_keys_insert (h : fields.keys.Nodup) : (fields.insert key value).keys.Nodup := by
  rw [keys_insert]
  split
  · exact h
  · rename_i hnew
    refine List.nodup_append.2 ⟨h, by simp, fun a ha b hb hab => hnew ?_⟩
    rw [← List.mem_singleton.1 hb, ← hab]
    exact ha

theorem nodup_keys_settle (fields : Fields) : fields.settle.keys.Nodup := by
  have hfold (fields done : Fields) (hdone : done.keys.Nodup) :
      (fields.foldl (fun done p => insert done p.1 p.2) done).keys.Nodup := by
    induction fields generalizing done with
    | nil => exact hdone
    | cons field fields ih => exact ih _ (nodup_keys_insert hdone)
  exact hfold fields [] List.nodup_nil

theorem mem_settle {p : String × Value} (h : p ∈ fields.settle) : p ∈ fields := by
  have hfold (fields done : Fields)
      (hp : p ∈ fields.foldl (fun done q => insert done q.1 q.2) done) : p ∈ done ∨ p ∈ fields := by
    induction fields generalizing done with
    | nil => exact .inl hp
    | cons field fields ih =>
      rcases ih _ hp with hp | hp
      · rcases mem_insert hp with rfl | hp
        · exact .inr List.mem_cons_self
        · exact .inl hp
      · exact .inr (List.mem_cons_of_mem _ hp)
  rcases hfold fields [] h with h | h
  · cases h
  · exact h

/-- Without repeated keys there is nothing to settle. -/
theorem settle_of_nodup (h : fields.keys.Nodup) : fields.settle = fields := by
  have hfold (fields done : Fields) (hboth : (keys (done ++ fields)).Nodup) :
      fields.foldl (fun done p => insert done p.1 p.2) done = done ++ fields := by
    induction fields generalizing done with
    | nil => rw [List.foldl_nil, List.append_nil]
    | cons field fields ih =>
      obtain ⟨k, v⟩ := field
      have hnew : k ∉ keys done := by
        rw [keys, List.map_append] at hboth
        intro hk
        exact (List.nodup_append.1 hboth).2.2 k hk k (List.mem_map_of_mem List.mem_cons_self) rfl
      have hassoc : done ++ (k, v) :: fields = done ++ [(k, v)] ++ fields := by simp
      rw [List.foldl_cons]
      dsimp only
      rw [insert_of_notMem hnew, ih _ (hassoc ▸ hboth), hassoc]
  exact hfold fields [] h

theorem get?_insert_self (fields : Fields) (key : String) (value : Value) :
    get? (insert fields key value) key = some value := by
  induction fields with
  | nil => rw [insert, get?_cons, if_pos rfl]
  | cons field fields ih =>
    obtain ⟨k, v⟩ := field
    rw [insert]
    split
    · next hk => rw [get?_cons, if_pos hk]
    · next hk => rw [get?_cons, if_neg hk, ih]

theorem get?_insert_of_ne (h : other ≠ key) (fields : Fields) (value : Value) :
    get? (insert fields key value) other = get? fields other := by
  induction fields with
  | nil =>
    rw [insert, get?_cons, if_neg h.symm]
  | cons field fields ih =>
    obtain ⟨k, v⟩ := field
    rw [insert]
    split
    · next hk =>
      rw [get?_cons, get?_cons, if_neg (by rw [hk]; exact h.symm), if_neg (by rw [hk]; exact h.symm)]
    · rw [get?_cons, get?_cons, ih]

theorem get?_eq_none (h : key ∉ fields.keys) : fields.get? key = none := by
  induction fields with
  | nil => rfl
  | cons field fields ih =>
    obtain ⟨k, v⟩ := field
    obtain ⟨hk, hrest⟩ := List.ne_and_not_mem_of_not_mem_cons h
    rw [get?_cons, if_neg hk.symm, ih hrest]

theorem mem_of_get? (h : fields.get? key = some value) : (key, value) ∈ fields := by
  induction fields with
  | nil => cases h
  | cons field fields ih =>
    obtain ⟨k, v⟩ := field
    rw [get?_cons] at h
    split at h
    · next hk =>
      cases h
      rw [hk]
      exact List.mem_cons_self
    · exact List.mem_cons_of_mem _ (ih h)

theorem erase_sublist (fields : Fields) (key : String) : (fields.erase key).Sublist fields := by
  induction fields with
  | nil => exact .slnil
  | cons field fields ih =>
    obtain ⟨k, v⟩ := field
    rw [erase]
    split
    · exact List.sublist_cons_self _ _
    · exact ih.cons_cons _

/-- The key is gone, if it was there once only. -/
theorem notMem_keys_erase (h : fields.keys.Nodup) (key : String) : key ∉ (fields.erase key).keys := by
  induction fields with
  | nil => exact List.not_mem_nil
  | cons field fields ih =>
    obtain ⟨k, v⟩ := field
    obtain ⟨hk, hrest⟩ := List.nodup_cons.1 h
    rw [erase]
    split
    · next heq =>
      rw [← heq]
      exact hk
    · next hne => exact List.not_mem_cons_of_ne_of_not_mem (Ne.symm hne) (ih hrest)

end Fields

/-! ### Parts of values -/

namespace Value

/-- Induction on values: on the items of arrays and the fields of objects. -/
@[elab_as_elim]
theorem byParts {P : Value → Prop} (null : P .null) (bool : ∀ b, P (.bool b))
    (number : ∀ n, P (.number n)) (string : ∀ s, P (.string s))
    (array : ∀ items, (∀ v ∈ items, P v) → P (.array items))
    (object : ∀ fields, (∀ p ∈ fields, P p.2) → P (.object fields)) (illFormed : P .illFormed) :
    ∀ v, P v
  | .null => null
  | .bool b => bool b
  | .number n => number n
  | .string s => string s
  | .array items => array items fun v hv =>
    have := List.sizeOf_lt_of_mem hv
    byParts null bool number string array object illFormed v
  | .object fields => object fields fun p hp =>
    have := List.sizeOf_lt_of_mem hp
    have : sizeOf p.2 < sizeOf p := by
      obtain ⟨key, v⟩ := p
      show sizeOf v < sizeOf (key, v)
      rw [Prod.mk.sizeOf_spec]
      omega
    byParts null bool number string array object illFormed p.2
  | .illFormed => illFormed
termination_by v => sizeOf v
decreasing_by all_goals simp_wf; omega

/-- A value is part of another, at whatever depth; every value is part of itself. -/
inductive Within : Value → Value → Prop
  | self (v : Value) : Within v v
  | item {u v : Value} {items : List Value} : Within u v → v ∈ items → Within u (.array items)
  | field {u v : Value} {k : String} {fields : Fields} :
    Within u v → (k, v) ∈ fields → Within u (.object fields)

variable {u v : Value} {items : List Value} {fields : Fields} {depth : Nat}

theorem within_string {s : String} : Within u (.string s) ↔ u = .string s := by
  constructor
  · rintro ⟨⟩
    rfl
  · rintro rfl
    exact .self _

theorem within_number {n : Number} : Within u (.number n) ↔ u = .number n := by
  constructor
  · rintro ⟨⟩
    rfl
  · rintro rfl
    exact .self _

theorem within_array : Within u (.array items) ↔ u = .array items ∨ ∃ v ∈ items, Within u v := by
  constructor
  · intro h
    cases h with
    | self => exact .inl rfl
    | item hu hv => exact .inr ⟨_, hv, hu⟩
  · rintro (rfl | ⟨v, hv, hu⟩)
    · exact .self _
    · exact .item hu hv

theorem within_object :
    Within u (.object fields) ↔ u = .object fields ∨ ∃ p ∈ fields, Within u p.2 := by
  constructor
  · intro h
    cases h with
    | self => exact .inl rfl
    | field hu hv => exact .inr ⟨_, hv, hu⟩
  · rintro (rfl | ⟨⟨k, v⟩, hv, hu⟩)
    · exact .self _
    · exact .field hu hv

/-! ### Depth -/

theorem areProper_iff : areProper depth items = true ↔ ∀ v ∈ items, v.isProper depth = true := by
  induction items with
  | nil => simp [areProper]
  | cons v items ih => simp [areProper, ih]

theorem areProperFields_iff :
    areProperFields depth fields = true ↔ ∀ p ∈ fields, p.2.isProper depth = true := by
  induction fields with
  | nil => simp [areProperFields]
  | cons p fields ih => simp [areProperFields, ih]

theorem isProper_array :
    (Value.array items).isProper depth = true ↔
      0 < depth ∧ ∀ v ∈ items, v.isProper (depth - 1) = true := by
  cases depth with
  | zero => simp [isProper]
  | succ d => simp [isProper, areProper_iff]

theorem isProper_object :
    (Value.object fields).isProper depth = true ↔
      0 < depth ∧ ∀ p ∈ fields, p.2.isProper (depth - 1) = true := by
  cases depth with
  | zero => simp [isProper]
  | succ d => simp [isProper, areProperFields_iff]

/-! ### Settling -/

theorem settleAll_eq (items : List Value) : settleAll items = items.map settle := by
  induction items with
  | nil => rfl
  | cons v items ih => rw [settleAll, ih, List.map_cons]

theorem settleFields_eq (fields : Fields) :
    settleFields fields = fields.map fun p => (p.1, p.2.settle) := by
  induction fields with
  | nil => rfl
  | cons p fields ih => rw [settleFields, ih, List.map_cons]

@[simp] theorem settle_array : (Value.array items).settle = .array (items.map settle) := by
  rw [settle, settleAll_eq]

@[simp] theorem settle_object : (Value.object fields).settle =
    .object (Fields.settle (fields.map fun p => (p.1, p.2.settle))) := by
  rw [settle, settleFields_eq]

/-- No object in the value has a key twice. -/
def Settled (v : Value) : Prop := ∀ fields : Fields, Within (.object fields) v → fields.keys.Nodup

/-- Settling makes of any value a settled one. -/
theorem settled_settle (v : Value) : v.settle.Settled := by
  intro fields h
  induction v using byParts with
  | null | bool | number | string | illFormed => cases h
  | array items ih =>
    rw [settle_array, within_array] at h
    rcases h with h | ⟨v, hv, h⟩
    · cases h
    · obtain ⟨u, hu, rfl⟩ := List.mem_map.1 hv
      exact ih u hu h
  | object inner ih =>
    rw [settle_object, within_object] at h
    rcases h with h | ⟨p, hp, h⟩
    · cases h
      exact Fields.nodup_keys_settle _
    · obtain ⟨q, hq, rfl⟩ := List.mem_map.1 (Fields.mem_settle hp)
      exact ih q hq h

/-- A settled value is left as it is. -/
theorem settle_of_settled (h : v.Settled) : v.settle = v := by
  induction v using byParts with
  | null | bool | number | string | illFormed => rfl
  | array items ih =>
    have hitems : items.map settle = items := by
      refine (List.map_congr_left fun v hv => ?_).trans (List.map_id _)
      exact ih v hv fun fields hf => h fields (.item hf hv)
    rw [settle_array, hitems]
  | object fields ih =>
    have hfields : fields.map (fun p => (p.1, p.2.settle)) = fields := by
      refine (List.map_congr_left fun p hp => ?_).trans (List.map_id _)
      rw [ih p hp fun inner hi => h inner (.field hi hp)]
      rfl
    rw [settle_object, hfields, Fields.settle_of_nodup (h fields (.self _))]

/-- The numbers are the same before and after. -/
theorem within_number_settle {n : Number} (h : Within (.number n) v.settle) :
    Within (.number n) v := by
  induction v using byParts with
  | null | bool | number | string | illFormed => exact h
  | array items ih =>
    rw [settle_array, within_array] at h
    rcases h with h | ⟨v, hv, h⟩
    · cases h
    · obtain ⟨u, hu, rfl⟩ := List.mem_map.1 hv
      exact .item (ih u hu h) hu
  | object fields ih =>
    rw [settle_object, within_object] at h
    rcases h with h | ⟨p, hp, h⟩
    · cases h
    · obtain ⟨q, hq, rfl⟩ := List.mem_map.1 (Fields.mem_settle hp)
      exact .field (ih q hq h) hq

theorem isProper_settle (h : v.isProper depth = true) : v.settle.isProper depth = true := by
  induction v using byParts generalizing depth with
  | null | bool | number | string | illFormed => exact h
  | array items ih =>
    rw [isProper_array] at h
    rw [settle_array, isProper_array]
    refine ⟨h.1, fun v hv => ?_⟩
    obtain ⟨u, hu, rfl⟩ := List.mem_map.1 hv
    exact ih u hu (h.2 u hu)
  | object fields ih =>
    rw [isProper_object] at h
    rw [settle_object, isProper_object]
    refine ⟨h.1, fun p hp => ?_⟩
    obtain ⟨q, hq, rfl⟩ := List.mem_map.1 (Fields.mem_settle hp)
    exact ih q hq (h.2 q hq)

/-! ### Numbers -/

mutual
/-- The value with other numbers in the places of its own. -/
def mapNumbers (f : Number → Number) : Value → Value
  | .number n => .number (f n)
  | .array items => .array (mapNumbersAll f items)
  | .object fields => .object (mapNumbersFields f fields)
  | v => v

def mapNumbersAll (f : Number → Number) : List Value → List Value
  | [] => []
  | v :: rest => v.mapNumbers f :: mapNumbersAll f rest

def mapNumbersFields (f : Number → Number) : Fields → Fields
  | [] => []
  | (k, v) :: rest => (k, v.mapNumbers f) :: mapNumbersFields f rest
end

variable {f : Number → Number}

theorem mapNumbersAll_eq (f : Number → Number) (items : List Value) :
    mapNumbersAll f items = items.map (mapNumbers f) := by
  induction items with
  | nil => rfl
  | cons v items ih => rw [mapNumbersAll, ih, List.map_cons]

theorem mapNumbersFields_eq (f : Number → Number) (fields : Fields) :
    mapNumbersFields f fields = fields.map fun p => (p.1, p.2.mapNumbers f) := by
  induction fields with
  | nil => rfl
  | cons p fields ih => rw [mapNumbersFields, ih, List.map_cons]

@[simp] theorem mapNumbers_array :
    (Value.array items).mapNumbers f = .array (items.map (mapNumbers f)) := by
  rw [mapNumbers, mapNumbersAll_eq]

@[simp] theorem mapNumbers_object : (Value.object fields).mapNumbers f =
    .object (fields.map fun p => (p.1, p.2.mapNumbers f)) := by
  rw [mapNumbers, mapNumbersFields_eq]

theorem mapNumbers_of_forall (h : ∀ n, Within (.number n) v → f n = n) : v.mapNumbers f = v := by
  induction v using byParts with
  | null | bool | string | illFormed => rfl
  | number n => rw [mapNumbers, h n (.self _)]
  | array items ih =>
    rw [mapNumbers_array, List.map_congr_left fun v hv => ih v hv fun n hn => h n (.item hn hv),
      List.map_id']
  | object fields ih =>
    have hfields : fields.map (fun p => (p.1, p.2.mapNumbers f)) = fields := by
      refine (List.map_congr_left fun p hp => ?_).trans (List.map_id _)
      rw [ih p hp fun n hn => h n (.field hn hp)]
      rfl
    rw [mapNumbers_object, hfields]

theorem isProper_mapNumbers (h : v.isProper depth = true) :
    (v.mapNumbers f).isProper depth = true := by
  induction v using byParts generalizing depth with
  | null | bool | number | string | illFormed => exact h
  | array items ih =>
    rw [isProper_array] at h
    rw [mapNumbers_array, isProper_array]
    refine ⟨h.1, fun v hv => ?_⟩
    obtain ⟨u, hu, rfl⟩ := List.mem_map.1 hv
    exact ih u hu (h.2 u hu)
  | object fields ih =>
    rw [isProper_object] at h
    rw [mapNumbers_object, isProper_object]
    refine ⟨h.1, fun p hp => ?_⟩
    obtain ⟨q, hq, rfl⟩ := List.mem_map.1 hp
    exact ih q hq (h.2 q hq)

theorem settled_mapNumbers (h : v.Settled) : (v.mapNumbers f).Settled := by
  intro inner hinner
  induction v using byParts with
  | null | bool | string | illFormed | number => cases hinner
  | array items ih =>
    rw [mapNumbers_array, within_array] at hinner
    rcases hinner with hinner | ⟨v, hv, hinner⟩
    · cases hinner
    · obtain ⟨u, hu, rfl⟩ := List.mem_map.1 hv
      exact ih u hu (fun fields hf => h fields (.item hf hu)) hinner
  | object fields ih =>
    rw [mapNumbers_object, within_object] at hinner
    rcases hinner with hinner | ⟨p, hp, hinner⟩
    · cases hinner
      rw [Fields.keys, List.map_map]
      exact h fields (.self _)
    · obtain ⟨q, hq, rfl⟩ := List.mem_map.1 hp
      exact ih q hq (fun fields hf => h fields (.field hf hq)) hinner

end Value

theorem Fields.get?_mapNumbers (f : Number → Number) (fields : Fields) (key : String) :
    get? (fields.map fun p => (p.1, p.2.mapNumbers f)) key =
      (get? fields key).map (Value.mapNumbers f) := by
  induction fields with
  | nil => rfl
  | cons field fields ih =>
    obtain ⟨k, v⟩ := field
    rw [List.map_cons, get?_cons, get?_cons, ih]
    split
    · rfl
    · rfl

end RouterShift.Json
