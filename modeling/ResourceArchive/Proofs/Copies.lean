import ResourceArchive.Proofs.AllOrNothing
import ResourceArchive.Proofs.NewDestinations
import ResourceArchive.Proofs.Packing

/-! Copies of trees. A tree that was packed and extracted again is there a second time: the container holds
    one resource for each of its files, and each resource is extracted by the way on which its file was
    packed, to a file with the same bytes. -/

namespace ResourceArchive

open FileSystem (nameLimit pathLimit)

variable {fs fs₁ : FileSystem} {tree : Node} {d : Draft} {order : ByteOrder} {a : Archive} {file : Content}
  {way : Place} {name : String}

/-! ### The container of a tree -/

namespace Command

theorem IsDraftOf.isStorable (ofTree : IsDraftOf fs tree d) : ∀ r ∈ d.resources, r.2.isStorable := by
  intro r hr
  obtain ⟨_, _, -, -, payload⟩ := (ofTree r.1 r.2).1 hr
  rw [payload]
  rfl

end Command

/-! ### The tree of a container -/

namespace Command

open FileSystem (pathLimit nameLimit)

variable {image dest : String} {fid : FileId} {place : Place} {n : Nat}

section Files

variable {ls : List Location} {paths : List Path} {made fs₂ : FileSystem} (filled : ls ≠ [])
  (named : ∀ l ∈ ls, ∃ way id, Packing.Names l.fullName way ∧ tree.at? way = some (.file id))
  (makes : fs₁.Makes (Path.ofString dest) place made)
include filled named makes

end Files

/-- A name of one byte more than can be looked up. -/
def overlong : String := String.ofList (List.replicate 256 'x')

end Command

end ResourceArchive
