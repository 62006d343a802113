import ScalarLang.Command.Host
import ScalarLang.Table

/-!
# Files in memory

A directory holds files by their path below it, and has the directories that those paths
go through. A written path is walked component by component: an empty component or a dot
stays, two dots go to the parent, and a name goes on. Only a directory can be walked on
from. A path that ends in a slash asks for a directory, and so no file is made there.

Above the directory and at the root of the system there are directories, and no
files are known of.

## Main results

* `read_write`: what was written at a path is read at it.
-/

namespace ScalarLang

/-- The names on the way to a place. Dots are names only above the directory. -/
abbrev Place := List String

/-- Files by their place. -/
structure Directory where
  files : Table Place ByteArray

namespace Directory

/-- The place of the root of the system. -/
def root : Place := ["/"]

/-- Whether there is a directory at a place: above, at the root, or on
the way to a file. -/
def hasDirectory (d : Directory) (place : Place) : Bool :=
  place.all (· == "..") || place == root ||
    d.files.keys.any fun file => place.length < file.length && place.isPrefixOf file

/-- The place above a place. -/
def parent (place : Place) : Place :=
  if place.all (· == "..") then place ++ [".."]
  else if place = root then root
  else place.dropLast

/-- The place that one component leads to. -/
def follow (place : Place) (component : String) : Place :=
  if component = "" ∨ component = "." then place
  else if component = ".." then parent place
  else place ++ [component]

/-- Why a place is no directory to go on from, if it is none. -/
def checkDirectory (d : Directory) (place : Place) : Except FileFailure Unit :=
  if d.hasDirectory place then .ok ()
  else if d.files.contains place then .error .notDirectory
  else .error .missing

/-- Walks components. -/
def walk (d : Directory) (place : Place) : List String → Except FileFailure Place
  | [] => .ok place
  | component :: rest => do
    d.checkDirectory place
    d.walk (follow place component) rest

/-- The place that a path starts from, and its components. The empty
path starts nowhere. -/
def components? (path : String) : Option (Place × List String) :=
  match (path.toList.splitOnP (· == '/')).map String.ofList with
  | [""] => none
  | "" :: rest => some (root, rest)
  | components => some ([], components)

/-- The components of a path without the empty ones behind its last slashes. -/
def dropSlashes (components : List String) : List String :=
  (components.reverse.dropWhile (· == "")).reverse

/-- The contents of the file at a path. -/
def read (d : Directory) (path : String) : Except FileFailure ByteArray := do
  let (start, components) ← (components? path).elim (.error .missing) .ok
  let place ← d.walk start components
  if d.hasDirectory place then .error .isDirectory
  else (d.files.find? place).elim (.error .missing) .ok

/-- The directory with contents at a path. -/
def write (d : Directory) (path : String) (contents : ByteArray) :
    Except FileFailure Directory := do
  let (start, components) ← (components? path).elim (.error .missing) .ok
  let place ← d.walk start (dropSlashes components)
  if dropSlashes components ≠ components ||
    d.hasDirectory place then .error .isDirectory
  else .ok ⟨d.files.insert place contents⟩

/-- The directory with these files. -/
def ofFiles (files : List (String × ByteArray)) : Directory :=
  ⟨.ofList (files.map fun (path, contents) =>
    (((components? path).elim [] (·.2)).foldl follow [], contents))⟩

/-- The files that are new since an earlier state of the directory, or
have other contents. -/
def changedSince (d earlier : Directory) : List (String × ByteArray) :=
  (d.files.entries.filter fun (place, contents) =>
    (earlier.files.find? place).all (· != contents)).map fun (place, contents) =>
      ("/".intercalate place, contents)

/-! ## Writing and reading -/

private theorem hasDirectory_insert (d : Directory) (place file : Place)
    (contents : ByteArray) :
    hasDirectory ⟨d.files.insert file contents⟩ place =
      (d.hasDirectory place ||
        (place.length < file.length && place.isPrefixOf file)) := by
  simp only [hasDirectory, Table.any_keys_insert]
  rw [Bool.or_left_comm, Bool.or_comm]

private theorem checkDirectory_eq_ok {d : Directory} {place : Place} {u : Unit}
    (h : d.checkDirectory place = .ok u) : d.hasDirectory place = true := by
  unfold checkDirectory at h
  split at h
  · assumption
  · split at h <;> cases h

private theorem walk_of_le {d e : Directory}
    (le : ∀ place, d.hasDirectory place = true → e.hasDirectory place = true)
    {start place : Place} {components : List String}
    (h : d.walk start components = .ok place) :
    e.walk start components = .ok place := by
  induction components generalizing start with
  | nil => exact h
  | cons component rest ih =>
    simp only [walk] at h ⊢
    cases hd : d.checkDirectory start with
    | error _ => rw [hd] at h; cases h
    | ok _ =>
      rw [hd] at h
      simp only [checkDirectory, le _ (checkDirectory_eq_ok hd), if_true]
      exact ih h

theorem read_write {d e : Directory} {path : String} {contents : ByteArray}
    (h : d.write path contents = .ok e) : e.read path = .ok contents := by
  unfold write at h
  cases hc : components? path with
  | none => rw [hc] at h; cases h
  | some start =>
    obtain ⟨start, components⟩ := start
    simp only [hc, Option.elim_some, bind, Except.bind] at h
    cases hw : d.walk start (dropSlashes components) with
    | error _ => rw [hw] at h; cases h
    | ok place =>
      simp only [hw] at h
      split at h
      · cases h
      · rename_i hplace
        simp only [Bool.or_eq_true, decide_eq_true_eq, not_or, Decidable.not_not,
          Bool.not_eq_true] at hplace
        obtain ⟨hslashes, hplace⟩ := hplace
        cases h
        rw [hslashes] at hw
        have hwalk := walk_of_le (e := ⟨d.files.insert place contents⟩)
          (fun p hp => by rw [hasDirectory_insert, hp, Bool.true_or]) hw
        simp [read, hc, bind, Except.bind, hwalk, hasDirectory_insert, hplace,
          Table.find?_insert]

end Directory

end ScalarLang
