/-!
# Tables

A table assigns a value to some keys. It is a list of entries in the order in which the
keys were first used; a key has one entry, and assigning to it again changes that entry
where it stands. The tables of this library are small, and a list lets proofs follow a
lookup step by step.

## Main results

* `find?_insert`: an assignment changes the value of its own key and of no other.
-/

namespace ScalarLang

/-- Values for some keys, in the order of their first assignment. -/
structure Table (κ : Type) (ν : Type) where
  entries : List (κ × ν)
deriving DecidableEq

namespace Table

variable {κ ν : Type} [DecidableEq κ]

/-- The table without entries. -/
def empty : Table κ ν := ⟨[]⟩

/-- The value of a key in a list of entries. -/
def findIn (k : κ) : List (κ × ν) → Option ν
  | [] => none
  | (j, v) :: rest => if j = k then some v else findIn k rest

/-- Entries with the value of a key changed, or with an entry for it behind them. -/
def insertIn (k : κ) (v : ν) : List (κ × ν) → List (κ × ν)
  | [] => [(k, v)]
  | (j, w) :: rest => if j = k then (k, v) :: rest else (j, w) :: insertIn k v rest

/-- The value of a key. -/
def find? (t : Table κ ν) (k : κ) : Option ν := findIn k t.entries

/-- Whether a key has a value. -/
def contains (t : Table κ ν) (k : κ) : Bool := (t.find? k).isSome

/-- The keys that have a value. -/
def keys (t : Table κ ν) : List κ := t.entries.map Prod.fst

/-- The table with a value assigned to a key. -/
def insert (t : Table κ ν) (k : κ) (v : ν) : Table κ ν := ⟨insertIn k v t.entries⟩

/-- The table that a list of assignments makes, the last one for a key standing. -/
def ofList (entries : List (κ × ν)) : Table κ ν :=
  entries.foldl (fun t entry => t.insert entry.1 entry.2) empty

theorem find?_empty (k : κ) : (empty : Table κ ν).find? k = none := rfl

private theorem findIn_insertIn (j k : κ) (v : ν) (entries : List (κ × ν)) :
    findIn j (insertIn k v entries) = if k = j then some v else findIn j entries := by
  induction entries with
  | nil => rfl
  | cons entry rest ih =>
    obtain ⟨i, w⟩ := entry
    by_cases hk : i = k
    · by_cases hj : k = j <;> simp [insertIn, findIn, hk, hj]
    · by_cases hj : i = j
      · subst hj
        simp [insertIn, findIn, hk, Ne.symm hk]
      · simp [insertIn, findIn, hk, hj, ih]

theorem find?_insert (t : Table κ ν) (j k : κ) (v : ν) :
    (t.insert k v).find? j = if k = j then some v else t.find? j :=
  findIn_insertIn j k v t.entries

private theorem any_insertIn (p : κ → Bool) (k : κ) (v : ν) (entries : List (κ × ν)) :
    ((insertIn k v entries).map Prod.fst).any p =
      (p k || (entries.map Prod.fst).any p) := by
  induction entries with
  | nil => rfl
  | cons entry rest ih =>
    obtain ⟨i, w⟩ := entry
    by_cases hk : i = k
    · simp [insertIn, hk]
    · simp only [insertIn, hk, if_false, List.map_cons, List.any_cons, ih]
      exact Bool.or_left_comm _ _ _

theorem any_keys_insert (t : Table κ ν) (p : κ → Bool) (k : κ) (v : ν) :
    (t.insert k v).keys.any p = (p k || t.keys.any p) := any_insertIn p k v t.entries

end Table

end ScalarLang
