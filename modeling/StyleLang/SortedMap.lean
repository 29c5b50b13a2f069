/-!
# Maps with sorted keys

The fields of an object: distinct keys in increasing order, each with a value. Order and
distinctness are part of the type, so a map has one form and equal maps list equal entries. Values
are given by position, which lets a data type nest maps of itself; `entries` is the view as a list,
and `ofSorted` its inverse. Keys are ordered by code points, which is also the order of their UTF-8
bytes.
-/

namespace StyleLang

/-- A finite map from texts, with its keys in increasing order. -/
structure SortedMap (α : Type) where
  keys : List String
  sorted : keys.Pairwise (· < ·)
  value : Fin keys.length → α

namespace SortedMap

variable {α : Type}

/-- The entries of a map in the order of their keys. -/
def entries (map : SortedMap α) : List (String × α) :=
  List.ofFn fun i ↦ (map.keys[i], map.value i)

/-- The map of entries whose keys increase. -/
def ofSorted (entries : List (String × α)) (sorted : (entries.map (·.1)).Pairwise (· < ·)) :
    SortedMap α where
  keys := entries.map (·.1)
  sorted := sorted
  value i := (entries.get (i.cast (by simp))).2

@[simp]
theorem map_fst_entries (map : SortedMap α) : map.entries.map (·.1) = map.keys := by
  apply List.ext_getElem <;> simp [entries]

/-- The entries are those at each position. -/
theorem mem_entries_iff {map : SortedMap α} {entry : String × α} :
    entry ∈ map.entries ↔ ∃ i, (map.keys[i], map.value i) = entry :=
  List.mem_ofFn

@[simp]
theorem entries_ofSorted (entries : List (String × α)) (sorted) :
    (ofSorted entries sorted).entries = entries := by
  apply List.ext_getElem <;> simp [SortedMap.entries, ofSorted]

/-- A map is determined by its entries. -/
@[ext]
theorem ext_entries {a b : SortedMap α} (h : a.entries = b.entries) : a = b := by
  have hkeys : a.keys = b.keys := by rw [← map_fst_entries, ← map_fst_entries, h]
  obtain ⟨ks, hsorted, value⟩ := a
  obtain ⟨ls, hsorted', value'⟩ := b
  obtain rfl : ks = ls := hkeys
  congr
  funext i
  have hentry := congrArg (·[i.val]?) h
  simpa [entries] using hentry

/-- Puts an entry among entries with increasing keys, in the place of an entry with its key. -/
def insertEntry (key : String) (value : α) : List (String × α) → List (String × α)
  | [] => [(key, value)]
  | (k, v) :: rest =>
      if key < k then (key, value) :: (k, v) :: rest
      else if k < key then (k, v) :: insertEntry key value rest
      else (key, value) :: rest

theorem mem_map_fst_insertEntry {key k : String} {value : α} {entries : List (String × α)}
    (h : k ∈ (insertEntry key value entries).map (·.1)) : k = key ∨ k ∈ entries.map (·.1) := by
  induction entries with
  | nil => simpa [insertEntry] using h
  | cons entry rest ih =>
      rw [insertEntry] at h
      split at h
      · simpa using h
      · split at h
        · rcases List.mem_cons.mp h with rfl | h
          · simp
          · rcases ih h with rfl | h
            · simp
            · simp [h]
        · rcases List.mem_cons.mp h with rfl | h
          · simp
          · simp [h]

theorem sorted_insertEntry (key : String) (value : α) {entries : List (String × α)}
    (h : (entries.map (·.1)).Pairwise (· < ·)) :
    ((insertEntry key value entries).map (·.1)).Pairwise (· < ·) := by
  induction entries with
  | nil => simp [insertEntry]
  | cons entry rest ih =>
      obtain ⟨hfirst, hrest⟩ := List.pairwise_cons.mp h
      rw [insertEntry]
      split
      · rename_i hless
        refine List.pairwise_cons.mpr ⟨fun k hk ↦ ?_, h⟩
        rcases List.mem_cons.mp hk with rfl | hk
        · exact hless
        · exact String.lt_trans hless (hfirst k hk)
      · rename_i hnotLess
        split
        · rename_i hgreater
          refine List.pairwise_cons.mpr ⟨fun k hk ↦ ?_, ih hrest⟩
          rcases mem_map_fst_insertEntry hk with rfl | hk
          · exact hgreater
          · exact hfirst k hk
        · rename_i hnotGreater
          have hsame : key = entry.1 := String.le_antisymm hnotGreater hnotLess
          exact List.pairwise_cons.mpr ⟨by simpa [hsame] using hfirst, hrest⟩

/-- The entries with increasing keys that remain of any entries. Of several entries with one key
the last remains. -/
def sortEntries (entries : List (String × α)) : List (String × α) :=
  entries.foldl (fun sorted entry ↦ insertEntry entry.1 entry.2 sorted) []

theorem sorted_sortEntries (entries : List (String × α)) :
    ((sortEntries entries).map (·.1)).Pairwise (· < ·) := by
  have hstep : ∀ (todo done : List (String × α)), (done.map (·.1)).Pairwise (· < ·) →
      ((todo.foldl (fun sorted entry ↦ insertEntry entry.1 entry.2 sorted) done).map
        (·.1)).Pairwise (· < ·) := by
    intro todo
    induction todo with
    | nil => intro done h; exact h
    | cons entry rest ih => intro done h; exact ih _ (sorted_insertEntry _ _ h)
  exact hstep entries [] .nil

/-- The map of any entries. Of several entries with one key the last counts. -/
def ofEntries (entries : List (String × α)) : SortedMap α :=
  ofSorted (sortEntries entries) (sorted_sortEntries entries)

/-- An entry whose key comes after all others is put at the end. -/
theorem insertEntry_of_forall_lt {key : String} {value : α} {entries : List (String × α)}
    (h : ∀ entry ∈ entries, entry.1 < key) :
    insertEntry key value entries = entries ++ [(key, value)] := by
  induction entries with
  | nil => rfl
  | cons entry rest ih =>
      obtain ⟨hfirst, hrest⟩ := List.forall_mem_cons.mp h
      rw [insertEntry, if_neg (String.lt_asymm hfirst), if_pos hfirst, ih hrest, List.cons_append]

/-- Entries with increasing keys stay as they are. -/
theorem sortEntries_of_sorted {entries : List (String × α)}
    (h : (entries.map (·.1)).Pairwise (· < ·)) : sortEntries entries = entries := by
  have hstep : ∀ (todo done : List (String × α)), ((done ++ todo).map (·.1)).Pairwise (· < ·) →
      todo.foldl (fun sorted entry ↦ insertEntry entry.1 entry.2 sorted) done = done ++ todo := by
    intro todo
    induction todo with
    | nil => intro done _; exact (List.append_nil done).symm
    | cons entry rest ih =>
        intro done h
        have hlast : ∀ other ∈ done, other.1 < entry.1 := by
          rw [List.map_append] at h
          intro other hother
          exact (List.pairwise_append.mp h).2.2 _ (List.mem_map_of_mem hother) _ (by simp)
        rw [List.foldl_cons, insertEntry_of_forall_lt hlast]
        simpa using ih (done ++ [entry]) (by simpa using h)
  exact hstep entries [] h

/-- The entries of a map of entries with increasing keys. -/
theorem entries_ofEntries {entries : List (String × α)}
    (h : (entries.map (·.1)).Pairwise (· < ·)) : (ofEntries entries).entries = entries :=
  (entries_ofSorted ..).trans (sortEntries_of_sorted h)

/-- The map without entries. -/
def empty : SortedMap α :=
  ofSorted [] .nil

/-- Whether there are no entries. -/
def isEmpty (map : SortedMap α) : Bool :=
  map.keys.isEmpty

/-- The value of a key. -/
def get? (map : SortedMap α) (key : String) : Option α :=
  map.entries.lookup key

/-- The map with a value set for a key. -/
def insert (map : SortedMap α) (key : String) (value : α) : SortedMap α :=
  ofSorted (insertEntry key value map.entries)
    (sorted_insertEntry key value (by simpa using map.sorted))

@[simp]
theorem entries_insert (map : SortedMap α) (key : String) (value : α) :
    (map.insert key value).entries = insertEntry key value map.entries :=
  entries_ofSorted ..

/-- Among entries with a new entry, its key has its value and every other key has what it had. -/
theorem lookup_insertEntry (k key : String) (value : α) (entries : List (String × α)) :
    (insertEntry key value entries).lookup k =
      if k = key then some value else entries.lookup k := by
  by_cases h : k = key
  · subst h
    induction entries with
    | nil => simp [insertEntry]
    | cons entry rest ih =>
        obtain ⟨k', v⟩ := entry
        rw [insertEntry]
        split
        · simp
        · split
          · rename_i hgreater
            have hdiffers : (k == k') = false :=
              beq_false_of_ne fun hsame ↦ String.lt_irrefl k (hsame ▸ hgreater)
            simp only [List.lookup_cons, hdiffers, ih]
          · simp
  · have hdiffers : (k == key) = false := beq_false_of_ne h
    induction entries with
    | nil => simp [insertEntry, List.lookup_cons, hdiffers, h]
    | cons entry rest ih =>
        obtain ⟨k', v⟩ := entry
        rw [insertEntry]
        split
        · simp [List.lookup_cons, hdiffers]
        · split
          · simp only [List.lookup_cons, ih, h, if_false]
          · rename_i hnotLess hnotGreater
            obtain rfl : key = k' := String.le_antisymm hnotGreater hnotLess
            simp [List.lookup_cons, hdiffers]

/-- After a value is set, its key has it and every other key has what it had. -/
theorem get?_insert (map : SortedMap α) (k key : String) (value : α) :
    (map.insert key value).get? k = if k = key then some value else map.get? k := by
  simp [get?, lookup_insertEntry]

/-- The map without a key. -/
def erase (map : SortedMap α) (key : String) : SortedMap α :=
  ofSorted (map.entries.filter (·.1 ≠ key)) <| by
    have hsublist := (map.entries.filter_sublist (p := (·.1 ≠ key))).map (·.1)
    exact (map_fst_entries map ▸ map.sorted : (map.entries.map (·.1)).Pairwise (· < ·)).sublist
      hsublist

end SortedMap

end StyleLang
