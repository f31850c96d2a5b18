import ResourceArchive.Proofs.Accepted
import ResourceArchive.Proofs.Failures
import ResourceArchive.Proofs.Trees

/-! Packing a tree. Where nothing on the way is unreadable, the files of the tree are packed under their
    names, each once, and the container is then found where it was to be written. A failure on the way is
    never about a name. -/

namespace ResourceArchive

namespace Command

open FileSystem FileAccess

variable {fs fs' : FileSystem} {source path : Path} {tree : Node} {name : String} {way : Place}
  {met : List Sighting} {resources : List (String × Path)} {d : Draft} {image : String}

/-! ### Names -/

section Writing

variable {fs₁ fs₂ : FileSystem} {e : Error} {l : Draft.Layout}

theorem writeDraft_refused {e : SystemError} (refused : fs.write (Path.ofString image) {} = .error e) :
    (writeDraft d image : StateM FileSystem Outcome) fs
      = (({} : Outcome).fail ((Failure.ofSystem e).during ("creating " ++ image)), fs) := by
  have made : (writeFile (Path.ofString image) {} : StateM FileSystem _) fs = (.error e, fs) :=
    attempt_error refused
  rw [writeDraft, bind_apply made]
  rfl

variable (made : fs.write (Path.ofString image) {} = .ok fs₁)
include made

/-- A draft that cannot be laid out leaves the file as it was made, empty. -/
theorem writeDraft_of_layout_error (unlaid : d.layout = .error e) :
    (writeDraft d image : StateM FileSystem Outcome) fs = (({} : Outcome).fail (.ofError e), fs₁) := by
  have made : (writeFile (Path.ofString image) {} : StateM FileSystem _) fs = (.ok (), fs₁) :=
    attempt_ok made
  rw [writeDraft, bind_apply made]
  simp only [unlaid]
  rfl

theorem writeDraft_of_layout (laid : d.layout = .ok l)
    (written : fs₁.write (Path.ofString image) (l.toContent d.options.order) = .ok fs₂) :
    (writeDraft d image : StateM FileSystem Outcome) fs = (packLog d l image, fs₂) := by
  have made : (writeFile (Path.ofString image) {} : StateM FileSystem _) fs = (.ok (), fs₁) :=
    attempt_ok made
  have written : (writeFile (Path.ofString image) (l.toContent d.options.order) :
      StateM FileSystem _) fs₁ = (.ok (), fs₂) := attempt_ok written
  rw [writeDraft, bind_apply made]
  simp only [laid]
  rw [bind_apply written]
  rfl

end Writing

/-- The resources of a draft are the files of a tree. -/
def IsDraftOf (fs : FileSystem) (tree : Node) (d : Draft) : Prop := ∀ name payload,
  (name, payload) ∈ d.resources ↔ ∃ way id, Packing.Names name way ∧ tree.at? way = some (.file id)
    ∧ payload = .plain (fs.content id)

section Pack

variable (walk : FileSystem → Path → List Sighting)

/-- What comes of packing where `walk` says what a walk meets. -/
def packBy (order : ByteOrder) (source image densityText : String) : StateM FileSystem Outcome :=
  @pack (StateM FileSystem) _ (access walk) order source image densityText

/-- Reading files has nothing to do with walks. -/
theorem gather_access (d : Draft) (resources : List (String × Path)) :
    @gather (StateM FileSystem) _ (access walk) d resources = gather d resources := by
  induction resources generalizing d with
  | nil => rfl
  | cons r rest ih =>
    obtain ⟨name, path⟩ := r
    funext fs
    have opened : (openFile path : StateM FileSystem _) fs = (_, fs) := rfl
    have opened' : @openFile (StateM FileSystem) (access walk) path fs = (_, fs) := rfl
    simp only [gather]
    rw [bind_apply opened, bind_apply opened']
    rcases fs.fileAt path with e | id
    · rfl
    · dsimp only
      rcases d.add name (.plain (fs.content id)) with e | d'
      · rfl
      · exact congrFun (ih d') fs

variable {walk} {order : ByteOrder} {sourceText densityText : String}

theorem packBy_of_density {f : Failure} (wrong : density densityText = .error f) :
    packBy walk order sourceText image densityText fs = (({} : Outcome).fail f, fs) := by
  simp only [packBy, pack, wrong]
  rfl

/-- Once the density was read, what comes of packing hangs on what the walk met, and then on what was
    gathered. -/
theorem packBy_eq {x : Binary64} (dense : density densityText = .ok x) :
    packBy walk order sourceText image densityText fs =
      match packing (Path.ofString sourceText) (walk fs (Path.ofString sourceText)) with
      | .error f => (({} : Outcome).fail f, fs)
      | .ok resources =>
        match (gather { options := { order := order, density := x } } resources :
          StateM FileSystem (Except Failure Draft)) fs with
        | (.error f, fs') => (({} : Outcome).fail f, fs')
        | (.ok d, fs') => (writeDraft d image : StateM FileSystem Outcome) fs' := by
  have found : @files (StateM FileSystem) (access walk) (Path.ofString sourceText) fs = (_, fs) := rfl
  rw [packBy]
  simp only [pack, dense]
  rw [bind_apply found]
  rcases packed : packing (Path.ofString sourceText) (walk fs (Path.ofString sourceText)) with f | resources
  · rfl
  · simp only [gather_access]
    rcases given : (gather { options := { order := order, density := x } } resources :
      StateM FileSystem (Except Failure Draft)) fs with ⟨f | d, fs'⟩
    · rw [bind_apply given]
      rfl
    · rw [bind_apply given]
      rfl

end Pack

end Command

end ResourceArchive
