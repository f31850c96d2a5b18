import ResourceArchive.Proofs.Parts
import ResourceArchive.Proofs.Verification

/-! Modules. A name is taken apart when it is added, and put together again from a module and a path when it
    is looked up. Since no module has a slash in it, the two agree: whatever follows the slash behind the
    module, even if it begins with a slash itself, is the path. -/

namespace ResourceArchive

namespace NameParts

variable {name module path : String} {p : NameParts}

theorem unslashed_of_split (named : split name = .ok p) : '/' ∉ p.module.toList :=
  (isCanonical_of_split named).unslashed _ (.head _)

/-- What stands in front of a path is its module, if it can be one. -/
theorem module_of_split_slashed (unslashed : '/' ∉ module.toList)
    (named : split ("/" ++ module ++ "/" ++ path) = .ok p) : p.module = module := by
  obtain rfl := eq_ofChars_of_split named
  rw [module_ofChars, toList_slashed, takeModule_append unslashed, String.ofList_toList]

/-- Behind a module there is one path. -/
theorem exists_path_of_split (named : split name = .ok p) (some : p.module ≠ "") :
    ∃ path, ∀ q, name = "/" ++ p.module ++ "/" ++ q ↔ q = path := by
  have whole := fullName_of_split named
  refine ⟨String.ofList p.pathChars, fun q => ?_⟩
  rw [← String.toList_inj, ← String.toList_inj, ← whole, toList_fullName, toList_slashed, toList_framed,
    if_neg some, String.toList_ofList, eq_comm]
  simp

end NameParts

namespace Draft

variable {d : Draft} {o : ByteOrder} {data : Bytes} {a : Archive} {l : Layout} {size : Nat}
  {rs : List Record}

/-- What is found is a resource of the draft, at the place that its record has. -/
theorem Laid.eq_locationOf_of_find? (laid : d.Laid l size rs) (packed : d.Packed o data a l)
    {name : String} {found : Location} (led : a.find? name = .ok (some found)) :
    ∃ i hi, d.resources[i].1 = name ∧ found = d.locationOf i hi := by
  by_cases held : ∃ r ∈ d.resources, r.1 = name
  · obtain ⟨r, hr, rfl⟩ := held
    obtain ⟨i, hi, rfl⟩ := List.mem_iff_getElem.1 hr
    rw [laid.find?_held packed hi, Except.ok.injEq, Option.some.injEq] at led
    exact ⟨i, hi, rfl, led.symm⟩
  · have absent : ∀ r ∈ d.resources, r.1 ≠ name := fun r hr same => held ⟨r, hr, same⟩
    rw [laid.find?_absent packed absent] at led
    cases led

theorem locationOf_mem {i : Nat} (hi : i < d.resources.length) :
    d.locationOf i hi ∈ locations 0 d.resources := by
  have there := getElem?_locations 0 d.resources hi
  rw [Nat.zero_add] at there
  exact List.mem_of_getElem? there

/-- The modules of a container that was built are those of its names, each once and in order. A resource of
    a module is found in it by the one path that its name has there, and what is found in a module is of
    that module, under the path that was asked for. -/
theorem module_view (built : d.toBytes = .ok data) :
    ∃ (a : Archive) (ls : List Location) (modules : List String),
      Archive.ofBytes d.options.order data = .ok a
      ∧ a.locations = ls.map .ok ∧ ls.map Location.fullName = d.resources.map (·.1)
      ∧ (∀ l ∈ ls, NameParts.split l.fullName = .ok l.name)
      ∧ a.moduleNames = .ok modules ∧ modules.Pairwise (fun s t => utf8 s < utf8 t)
      ∧ (∀ module, module ∈ modules ↔ module ≠ "" ∧ ∃ l ∈ ls, l.name.module = module)
      ∧ (∀ l ∈ ls, l.name.module ≠ "" → ∃ path,
          (∀ q, l.fullName = "/" ++ l.name.module ++ "/" ++ q ↔ q = path)
            ∧ a.findInModule? l.name.module path = .ok (some l))
      ∧ ∀ module ∈ modules, ∀ path l, a.findInModule? module path = .ok (some l) →
          l ∈ ls ∧ l.name.module = module ∧ l.fullName = "/" ++ module ++ "/" ++ path := by
  obtain ⟨a, layout, size, rs, laid, packed⟩ := packed_of_toBytes built
  have listed := laid.locations_eq packed
  have named : ∀ l ∈ locations 0 d.resources, NameParts.split l.fullName = .ok l.name := by
    intro l hl
    obtain ⟨i, hi, rfl⟩ := exists_locationOf hl
    rw [fullName_locationOf]
    exact split_locationOf hi
  obtain ⟨modules, known, ordered, member⟩ := Archive.moduleNames_eq_ok listed
  refine ⟨a, locations 0 d.resources, modules, Archive.ofBytes_eq_ok.2 packed.opened, listed,
    fullNames_locations 0 fun r => split_of_mem, named, known, ordered, member, ?_, ?_⟩
  · intro l hl some
    obtain ⟨path, one⟩ := NameParts.exists_path_of_split (named l hl) some
    refine ⟨path, one, ?_⟩
    obtain ⟨i, hi, rfl⟩ := exists_locationOf hl
    rw [Archive.findInModule?, ← (one path).2 rfl, fullName_locationOf]
    exact laid.find?_held packed hi
  · intro module known path l found
    obtain ⟨i, hi, name, rfl⟩ := laid.eq_locationOf_of_find? packed found
    obtain ⟨-, m, hm, rfl⟩ := (member module).1 known
    have split := split_locationOf hi
    rw [name] at split
    exact ⟨locationOf_mem hi,
      NameParts.module_of_split_slashed (NameParts.unslashed_of_split (named m hm)) split,
      (fullName_locationOf hi).trans name⟩

/-- Two modules, the name of one of which begins that of the other, and a path that begins with a slash. -/
def alikeCalls : List Resource :=
  [("/m/a", .plain (.ofBytes [1])), ("/mm/a", .plain (.ofBytes [2])), ("/m//p/a", .plain (.ofBytes [3])),
    ("a", .plain (.ofBytes []))]

/-- The path is the rest of the name, slash and all. -/
theorem module_view_alikeCalls : ∃ data a l, (addAll {} alikeCalls).toBytes = .ok data
    ∧ Archive.ofBytes .little data = .ok a ∧ a.moduleNames = .ok ["m", "mm"]
    ∧ a.findInModule? "m" "/p/a" = .ok (some l) ∧ l.name = ⟨"m", "/p", "a", ""⟩ := by
  have facts : ((addAll {} alikeCalls).toBytes.bind (Archive.ofBytes .little)).toOption.any fun a =>
      a.moduleNames = .ok ["m", "mm"]
      ∧ a.locations.head? = some (.ok ⟨⟨"m", "/p", "a", ""⟩, 0, 0, 1⟩) := by decide +kernel
  rcases built : (addAll {} alikeCalls).toBytes with e | data
  · rw [built] at facts
    cases facts
  obtain ⟨a, ls, -, opened, listed, -, -, -, -, -, held, -⟩ := module_view built
  rw [built, Except.bind, show Archive.ofBytes .little data = .ok a from opened] at facts
  obtain ⟨modules, first⟩ := of_decide_eq_true facts
  have among : .ok ⟨⟨"m", "/p", "a", ""⟩, 0, 0, 1⟩ ∈ a.locations := List.mem_of_head? first
  rw [listed, List.mem_map_of_injective fun _ _ h => Except.ok.inj h] at among
  obtain ⟨path, one, found⟩ := held _ among (by decide)
  obtain rfl := (one "/p/a").1 (by decide +kernel)
  exact ⟨data, a, _, rfl, opened, modules, found, rfl⟩

end Draft

end ResourceArchive
