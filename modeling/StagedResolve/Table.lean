/-
Finite tables: lists of pairs in which each key occurs once.

Inserting under a key that is there replaces its value in place, and
inserting under a new key appends, so a table keeps the order in which
its keys first arrived and its size is the number of its keys. What a
table answers is `find?`; the lemmas say what each operation does to it.
-/

namespace StagedResolve

/-- A finite table. -/
structure Table (κ : Type) (ν : Type) where
  entries : List (κ × ν)
  deriving DecidableEq, Repr

namespace Table

variable {κ ν : Type}

/-- The table without entries. -/
def empty : Table κ ν := ⟨[]⟩

instance : Inhabited (Table κ ν) := ⟨empty⟩

/-- The keys, in the order of their arrival. -/
def keys (t : Table κ ν) : List κ := t.entries.map Prod.fst

/-- The values, in the order of their keys. -/
def values (t : Table κ ν) : List ν := t.entries.map Prod.snd

/-- The number of entries. -/
def size (t : Table κ ν) : Nat := t.entries.length

/-- The entries whose key and value pass a test. -/
def filter (t : Table κ ν) (keep : κ → ν → Bool) : Table κ ν :=
  ⟨t.entries.filter fun e => keep e.1 e.2⟩

variable [DecidableEq κ]

/-- The value under a key in a list of pairs. -/
def lookup (k : κ) : List (κ × ν) → Option ν
  | [] => none
  | (k', v) :: rest => if k' = k then some v else lookup k rest

/-- A list of pairs with the value under one key replaced, or appended if there is none. -/
def put (k : κ) (v : ν) : List (κ × ν) → List (κ × ν)
  | [] => [(k, v)]
  | (k', v') :: rest => if k' = k then (k, v) :: rest else (k', v') :: put k v rest

/-- The value under a key. -/
def find? (t : Table κ ν) (k : κ) : Option ν := lookup k t.entries

/-- Whether there is a value under the key. -/
def contains (t : Table κ ν) (k : κ) : Bool := (t.find? k).isSome

/-- The table with a value under a key. -/
def insert (t : Table κ ν) (k : κ) (v : ν) : Table κ ν := ⟨put k v t.entries⟩

/-- The table without a key. -/
def erase (t : Table κ ν) (k : κ) : Table κ ν := t.filter fun k' _ => k' ≠ k

-- ======================================================== what find? sees

@[simp] theorem find?_empty (k : κ) : (empty : Table κ ν).find? k = none := rfl

/-- Putting a value under a key changes what is found there and nowhere else. -/
theorem lookup_put (k k' : κ) (v : ν) (es : List (κ × ν)) :
    lookup k' (put k v es) = if k = k' then some v else lookup k' es := by
  induction es with
  | nil => simp [put, lookup]
  | cons e rest ih =>
    obtain ⟨a, b⟩ := e
    by_cases hak : a = k
    · subst hak
      by_cases h : a = k' <;> simp [put, lookup, h]
    · by_cases hkk : k = k'
      · subst hkk
        simp [put, lookup, hak, ih]
      · by_cases h : a = k'
        · subst h
          simp [put, lookup, hak, hkk]
        · simp [put, lookup, hak, h, hkk, ih]

/-- Inserting under a key changes what is found there and nowhere else. -/
theorem find?_insert (t : Table κ ν) (k k' : κ) (v : ν) :
    (t.insert k v).find? k' = if k = k' then some v else t.find? k' :=
  lookup_put k k' v t.entries

@[simp] theorem find?_insert_self (t : Table κ ν) (k : κ) (v : ν) :
    (t.insert k v).find? k = some v := by
  simp [find?_insert]

/-- Inserting under a key leaves every other key as it was. -/
theorem find?_insert_of_ne (t : Table κ ν) {k k' : κ} (v : ν) (h : k ≠ k') :
    (t.insert k v).find? k' = t.find? k' := by
  simp [find?_insert, h]

/-- Erasing a key leaves nothing there and all else as it was. -/
theorem find?_erase (t : Table κ ν) (k k' : κ) :
    (t.erase k).find? k' = if k = k' then none else t.find? k' := by
  obtain ⟨es⟩ := t
  simp only [erase, filter, find?]
  induction es with
  | nil => simp [lookup]
  | cons e rest ih =>
    obtain ⟨a, b⟩ := e
    by_cases hak : a = k
    · subst hak
      by_cases h : a = k'
      · subst h; simpa [List.filter_cons] using ih
      · simpa [List.filter_cons, lookup, h] using ih
    · by_cases h : a = k'
      · subst h
        simp [lookup, hak, Ne.symm hak]
      · simpa [List.filter_cons, lookup, hak, h] using ih

end Table

end StagedResolve
