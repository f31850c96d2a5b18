import ResourceArchive.Proofs.Packing

/-! What a failure to pack leaves of the file that was to be written. All that is packed is read and named
    before that file is touched, so most failures change nothing. The exception is a draft that cannot be
    laid out: the file is made first, and emptied. -/

namespace ResourceArchive

namespace Command

open FileSystem FileAccess

variable {fs fs' : FileSystem} {order : ByteOrder} {source image densityText : String} {d : Draft}
  {e : Error} {o : Outcome}

/-- Reading what is to be packed changes nothing. -/
theorem exists_gather (fs : FileSystem) (d : Draft) (resources : List (String × Path)) :
    ∃ gathered, (gather d resources : StateM FileSystem (Except Failure Draft)) fs = (gathered, fs) := by
  induction resources generalizing d with
  | nil => exact ⟨_, rfl⟩
  | cons r rest ih =>
    obtain ⟨name, path⟩ := r
    have opened : (openFile path : StateM FileSystem _) fs = (_, fs) := rfl
    rw [gather, bind_apply opened]
    rcases fs.fileAt path with e | id
    · exact ⟨_, rfl⟩
    · dsimp only
      rcases d.add name (.plain (fs.content id)) with e | d'
      · exact ⟨_, rfl⟩
      · exact ih d'

/-- The draft of what a command line asks to pack: the density can be read, what the walk met has names, and
    each file was read and added. -/
def Gathered (fs : FileSystem) (order : ByteOrder) (source densityText : String) (d : Draft) : Prop :=
  ∃ x resources, ∃ empty : Draft, density densityText = .ok x
    ∧ packing (Path.ofString source) (fs.files (Path.ofString source)) = .ok resources
    ∧ empty.options = { order := order, density := x } ∧ empty.payloads = {}
    ∧ (gather empty resources : StateM FileSystem (Except Failure Draft)) fs = (.ok d, fs)

theorem pack_eq : (pack order source image densityText : StateM FileSystem Outcome) fs
    = packBy files order source image densityText fs := rfl

/-- What is gathered goes into the file, and nothing else does. -/
theorem pack_of_gathered (gathered : Gathered fs order source densityText d) :
    (pack order source image densityText : StateM FileSystem Outcome) fs
      = (writeDraft d image : StateM FileSystem Outcome) fs := by
  obtain ⟨x, resources, ⟨options, payloads, storable⟩, dense, packed, rfl, rfl, given⟩ := gathered
  simp only [pack_eq, packBy_eq dense, packed, given]

/-- Where nothing is gathered, nothing is changed. -/
theorem pack_gathers (order : ByteOrder) (source image densityText : String) (fs : FileSystem) :
    (∃ d, Gathered fs order source densityText d)
      ∨ ∃ f, (pack order source image densityText : StateM FileSystem Outcome) fs
        = (({} : Outcome).fail f, fs) := by
  rw [pack_eq]
  rcases dense : density densityText with f | x
  · exact .inr ⟨f, packBy_of_density dense⟩
  rw [packBy_eq dense]
  rcases packed : packing (Path.ofString source) (fs.files (Path.ofString source)) with f | resources
  · exact .inr ⟨f, rfl⟩
  obtain ⟨f | d, given⟩ := exists_gather fs { options := { order := order, density := x } } resources
  · exact .inr ⟨f, by simp only [given]⟩
  · exact .inl ⟨d, x, resources, _, dense, packed, rfl, rfl, given⟩

/-- A draft that cannot be laid out costs what the file held before. -/
theorem pack_of_layout_error (gathered : Gathered fs order source densityText d)
    (unlaid : d.layout = .error e) (made : fs.write (Path.ofString image) {} = .ok fs') :
    (pack order source image densityText : StateM FileSystem Outcome) fs
      = (({} : Outcome).fail (.ofError e), fs') := by
  rw [pack_of_gathered gathered, writeDraft_of_layout_error made unlaid]

/-- A failure to pack changes nothing, unless all was read and named and only then turned out to be too much
    for a container. In that case the file was emptied, or made. That a disk is full is not among the
    failures: a file has room for whatever is written to it. -/
theorem pack_failure (done : (pack order source image densityText : StateM FileSystem Outcome) fs = (o, fs'))
    (failed : o.status ≠ 0) :
    fs' = fs ∨ ∃ d e, Gathered fs order source densityText d ∧ d.layout = .error e ∧ e.OfSize
      ∧ o = ({} : Outcome).fail (.ofError e) ∧ fs.write (Path.ofString image) {} = .ok fs' := by
  rcases pack_gathers order source image densityText fs with ⟨d, gathered⟩ | ⟨f, refused⟩
  · rcases made : fs.write (Path.ofString image) {} with e | fs₁
    · rw [pack_of_gathered gathered, writeDraft_refused made, Prod.mk.injEq] at done
      exact .inl done.2.symm
    rcases unlaid : d.layout with e | l
    · rw [pack_of_layout_error gathered unlaid made, Prod.mk.injEq] at done
      obtain ⟨rfl, rfl⟩ := done
      exact .inr ⟨d, e, gathered, unlaid, Draft.ofSize_of_layout unlaid, rfl, rfl⟩
    -- What was made can be written, so that there is no failure left.
    · obtain ⟨fs₂, written⟩ := exists_write_of_write made (l.toContent d.options.order)
      rw [pack_of_gathered gathered, writeDraft_of_layout made unlaid written, Prod.mk.injEq] at done
      exact absurd (congrArg Outcome.status done.1.symm) failed
  · rw [refused, Prod.mk.injEq] at done
    exact .inl done.2.symm

/-- A file `i`, and a directory `s` with a file `a`. -/
def stocked : FileSystem where
  root := .directory [(utf8 "i", .file 0), (utf8 "s", .directory [(utf8 "a", .file 1)])]
  contents := #[.ofBytes [0], .ofBytes [7]]

/-- What comes of packing a directory. -/
def stockedPack (source image densityText : String) : Outcome × FileSystem :=
  (pack .little source image densityText : StateM FileSystem Outcome) stocked

/-- A directory that is not there is not packed, and the file is as it was. -/
theorem pack_failure_missing :
    (stockedPack "x" "i" "1").1.status = 1 ∧ (stockedPack "x" "i" "1").2 = stocked := by
  have failed : (stockedPack "x" "i" "1").1.status = 1 := by decide +kernel
  have done : (pack .little "x" "i" "1" : StateM FileSystem Outcome) stocked
      = ((stockedPack "x" "i" "1").1, (stockedPack "x" "i" "1").2) := rfl
  have nothing : (packing (Path.ofString "x") (stocked.files (Path.ofString "x"))).toOption = none := by
    decide +kernel
  refine ⟨failed, ?_⟩
  rcases pack_failure done (by rw [failed]; decide) with same | ⟨d, e, ⟨x, resources, -, -, packed, -⟩, -⟩
  · exact same
  · rw [packed] at nothing
    cases nothing

/-- With so many buckets to a resource that no table has as many, packing fails after the file was emptied,
    or made. -/
theorem stockedPack_overwrites :
    (stocked.read (Path.ofString "i")).map Content.toBytes = .ok [0]
    ∧ (stockedPack "s" "i" "1e300").1.status = 1
    ∧ ((stockedPack "s" "i" "1e300").2.read (Path.ofString "i")).map Content.toBytes = .ok []
    ∧ stocked.kind? [utf8 "j"] = none
    ∧ (stockedPack "s" "j" "1e300").1.status = 1
    ∧ (stockedPack "s" "j" "1e300").2.kind? [utf8 "j"] = some (.file 2) := by
  refine ⟨rfl, ?_, ?_, rfl, ?_, ?_⟩ <;> decide +kernel

end Command

end ResourceArchive
