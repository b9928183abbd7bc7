import TextPool.Proofs.Pool.Independence

/-!
# Pools without their texts

Where the strings of a pool stand, of which kind they are and how many owners each has makes a pool
again, in which every made string is empty and every loaded one is an empty span: the outline of the
pool. Which slot is looked at and which one is taken, whether a string is missing and what the table
of slots grows to is the same in a pool and in its outline, and a change of the pool is a change of
its outline.
-/

namespace TextPool

def StoredText.outline : StoredText → StoredText
  | .static _ _ => .static 0 ⟨0, 0⟩
  | .dynamic _ => .dynamic []

@[simp] theorem StoredText.kind_outline (text : StoredText) : text.outline.kind = text.kind := by
  cases text <;> rfl

def Entry.outline (entry : Entry) : Entry :=
  { entry with text := entry.text.outline }

theorem Entry.owners_outline (entry : Entry) : entry.outline.owners = entry.owners := rfl

theorem Entry.kind_outline (entry : Entry) : entry.outline.text.kind = entry.text.kind :=
  entry.text.kind_outline

/-- Owners are counted without regard to texts. -/
theorem Operation.treat_outline {operation : Operation} {handle : Handle} (config : Config)
    (entry : Entry) (hoperation : operation = .retain handle ∨ operation = .release handle) :
    operation.treat config entry.outline = ((operation.treat config entry).1,
      (operation.treat config entry).2.map Entry.outline) := by
  obtain rfl | rfl := hoperation
  · rfl
  · simp only [treat, entry.kind_outline, entry.owners_outline]
    split
    · rfl
    · split
      · rfl
      · rfl

def Slot.outline (slot : Slot) : Slot :=
  { slot with text := slot.text.map StoredText.outline }

theorem Slot.occupant?_outline (slot : Slot) :
    slot.outline.occupant? = slot.occupant?.map Entry.outline := by
  obtain ⟨text, owners⟩ := slot
  cases text <;> rfl

theorem Slot.outline_outline (slot : Slot) : slot.outline.outline = slot.outline := by
  obtain ⟨_ | ⟨_ | _⟩, owners⟩ := slot <;> rfl

namespace Pool

/-- What remains of a pool when the texts are left out. -/
def outline (pool : Pool) : Pool :=
  { pool with slots := pool.slots.map Slot.outline, blobs := #[] }

theorem outline_outline (pool : Pool) : pool.outline.outline = pool.outline := by
  have hslots : Slot.outline ∘ Slot.outline = Slot.outline := funext Slot.outline_outline
  simp only [outline, Array.map_map, hslots]

/-! ### Looking -/

section Looking

variable (pool : Pool)

@[simp] theorem capacity_outline : pool.outline.capacity = pool.capacity :=
  Array.size_map

@[simp] theorem config_outline : pool.outline.config = pool.config := rfl

@[simp] theorem boundary_outline : pool.outline.boundary = pool.boundary := rfl

@[simp] theorem count_outline : pool.outline.count = pool.count := rfl

@[simp] theorem contains_outline (handle : Handle) :
    pool.outline.contains handle = pool.contains handle := rfl

theorem entryAt?_outline (index : Nat) :
    pool.outline.entryAt? index = (pool.entryAt? index).map Entry.outline := by
  simp only [entryAt?, outline, Array.getElem?_map, Option.bind_map, Option.map_bind]
  congr 1
  funext slot
  exact slot.occupant?_outline

theorem live_outline {handle : Handle} : pool.outline.Live handle ↔ pool.Live handle := by
  simp only [Live, ← Option.isSome_iff_exists, entryAt?_outline, Option.isSome_map]

theorem absence_outline (handle : Handle) : pool.outline.absence handle = pool.absence handle := by
  rw [absence, absence, capacity_outline]

theorem check_outline (handles : List Handle) : pool.outline.check handles = pool.check handles := by
  induction handles with
  | nil => rfl
  | cons first rest ih =>
    by_cases hlive : pool.Live first
    · rw [check_cons_of_live hlive, check_cons_of_live (pool.live_outline.mpr hlive), ih]
    · rw [check_cons_of_not_live hlive, check_cons_of_not_live (hlive ∘ pool.live_outline.mp),
        absence_outline]

theorem entry_outline (handle : Handle) :
    pool.outline.entry handle = (pool.entry handle).map Entry.outline := by
  rw [Pool.entry, Pool.entry, entryAt?_outline, capacity_outline]
  cases pool.entryAt? handle.index with
  | some entry => rfl
  | none =>
    dsimp only [Option.map_none]
    split <;> rfl

theorem kind_outline (handle : Handle) : pool.outline.kind handle = pool.kind handle := by
  rw [Pool.kind, Pool.kind, entry_outline]
  cases pool.entry handle with
  | error failure => rfl
  | ok entry => exact congrArg Except.ok entry.text.kind_outline

theorem owners_outline (handle : Handle) : pool.outline.owners handle = pool.owners handle := by
  rw [Pool.owners, Pool.owners, entry_outline]
  cases pool.entry handle <;> rfl

theorem handle_outline (raw : Int64) : pool.outline.handle raw = pool.handle raw := by
  simp only [Pool.handle, capacity_outline]

theorem idle_outline : pool.outline.idle = pool.idle := by
  have hidle : pool.outline.isIdle = pool.isIdle := by
    funext index
    rw [isIdle, isIdle, entryAt?_outline]
    cases pool.entryAt? index with
    | none => rfl
    | some entry =>
      simp only [Option.map_some, Entry.outline, StoredText.kind_outline]
  rw [idle, idle, hidle]
  rfl

/-! ### Finding room -/

theorem vacantIndex?_outline : pool.outline.vacantIndex? = pool.vacantIndex? := by
  simp only [vacantIndex?, searchStart, capacity_outline]
  rfl

theorem grown?_outline (additional : Nat) :
    pool.outline.grown? additional = (pool.grown? additional).map outline := by
  have hslots (added : Nat) (occupied : Bitset) :
      { pool.outline with
        slots := pool.outline.slots ++ Array.replicate added .vacant, occupied }
      = outline { pool with slots := pool.slots ++ Array.replicate added .vacant, occupied } := by
    simp only [outline, Array.map_append, Array.map_replicate]
    rfl
  simp only [grown?, capacity_outline, Option.bind_eq_bind, Option.map_bind, Function.comp_def]
  congr 1
  funext added
  dsimp only [outline]
  cases Bitset.growWithin pool.config.memory pool.occupied added with
  | grown occupied =>
    simp only [Option.pure_def, Option.map_some, ← hslots]
    rfl
  | _ => rfl

theorem opening?_outline :
    pool.outline.opening? = pool.opening?.map fun (index, room) => (index, room.outline) := by
  rw [opening?, opening?, vacantIndex?_outline, capacity_outline]
  cases pool.vacantIndex? with
  | some index => rfl
  | none =>
    dsimp only
    rw [config_outline, grown?_outline, Option.map_map, Option.map_map]
    rfl

end Looking

/-! ### Changing -/

section Changing

variable (pool : Pool) (index : Nat)

theorem outline_placeDynamic (text : Bytes) :
    (pool.placeDynamic index text).outline = pool.outline.placeDynamic index [] := by
  simp only [outline, placeDynamic, place, Array.map_setIfInBounds]
  rfl

theorem outline_put (entry : Option Entry) :
    (pool.put index entry).outline = pool.outline.put index (entry.map Entry.outline) := by
  cases entry with
  | some entry =>
    simp only [outline, put, update, Option.map_some, Array.map_setIfInBounds]
    rfl
  | none =>
    simp only [outline, put, vacate, Option.map_none, Array.map_setIfInBounds]
    rfl

theorem outline_foldl_vacate (indices : List Nat) (pool : Pool) :
    (indices.foldl vacate pool).outline = indices.foldl vacate pool.outline := by
  induction indices generalizing pool with
  | nil => rfl
  | cons index rest ih =>
    rw [List.foldl_cons, ih]
    exact congrArg (rest.foldl vacate) (pool.outline_put index none)

end Changing

end Pool

end TextPool
