import Provision.Proofs.Clearing
import Provision.Proofs.Resuming
import Provision.Proofs.Sites

/-! Making an instance again when it has been removed.

A run that has made an instance in an absolute directory leaves everything as the next one needs it,
`Founded`: it has found the directory of the instance vacant, and so the way there goes nowhere
below it. After a removal the way is open and the directory of the instance is a site for its
stores, so the same request makes them again, `create_again`. There is one exception: the removed
directory was there before the first run, and the path of the request dangles. `recreates_iff` says
both. -/
namespace Provision

theorem Path.absolute_of_absolute {path : Path} (h : isAbsolute path) (directory other : Location) :
    absolute directory path = absolute other path := by
  simp [absolute, h]

namespace Instance

variable {host made : Host} {disk after : Disk} {request : Request} {receipt : Receipt}
  {parsed : ParsedGenesis} {directory whole : Path} {cache : UInt64} {stores : List Name}

/-! ### What a run leaves for the next one -/

/-- The stores that have been set up where nothing was could be opened, and nothing is refused
afterwards either. -/
theorem canOpen_of_setupStores (absolute : Path.isAbsolute directory) (coherent : disk.Coherent)
    (plain : ∀ store ∈ stores, store.IsPlain) (distinct : stores.Nodup)
    (vacant : ∀ store ∈ stores, disk.NoFile (storePlace directory store))
    (unlimited : disk.allowance = none)
    (h : setupStores disk directory parsed cache stores = (.ok (), after)) :
    canOpen directory parsed cache disk stores ∧ after.allowance = none := by
  induction stores generalizing disk with
  | nil =>
    cases h
    exact ⟨rfl, unlimited⟩
  | cons store rest ih =>
    obtain ⟨hplain, hplainRest⟩ := List.forall_mem_cons.mp plain
    obtain ⟨hnone, hnoneRest⟩ := List.forall_mem_cons.mp vacant
    obtain ⟨hstore, hrest⟩ := List.nodup_cons.mp distinct
    rw [setupStores] at h
    rcases hs : setupStore disk directory parsed cache store with ⟨_ | _, between⟩
    · rw [hs] at h
      cases h
    rw [hs] at h
    obtain ⟨handle, opened, _, _, _, hopen, -⟩ := setupStore_eq_ok hs
    obtain ⟨_, hs', hfree⟩ :=
      setupStore_of_opened parsed (vacant_of_noFile absolute hplain hnone) unlimited hopen
    rw [hs] at hs'
    cases hs'
    obtain ⟨hcoherent, -, -, -, hothers⟩ := setupStore_leaves absolute coherent hplain hnone hs
    obtain ⟨hopens, hafter⟩ := ih hcoherent hplainRest hrest
      (fun other hm => hothers other (fun he => hstore (he ▸ hm)) (hnoneRest other hm)) hfree h
    refine ⟨?_, hafter⟩
    rw [canOpen, hopen, hs, hopens]
    rfl

/-- If nothing is in the directory of an instance once the data directory has been made, the way
there goes nowhere below it. -/
theorem stays_of_vacant {name : Name} (plain : name.IsPlain)
    (walked : disk.walk [] (Path.steps whole) = .ok (directoryPlace whole))
    (there : disk.entry? (directoryPlace whole) = some .directory)
    (nothing : disk.hasEntries (directoryPlace (Path.join whole name)) = false) :
    (Path.join whole name).StaysAbove := by
  intro front hf hwithin
  obtain ⟨rest, hrest⟩ := hwithin
  cases rest with
  | nil =>
    rw [List.append_nil] at hrest
    exact hrest.symm
  | cons next rest =>
    exfalso
    have hbelow : directoryPlace (Path.join whole name) ++ [next] <+: Location.follow [] front :=
      ⟨rest, by rw [← hrest]; simp⟩
    obtain ⟨before, hb, hplace⟩ := Location.exists_front_of_prefix hbelow
    have hsteps := hb.trans hf
    rw [Path.steps_join plain] at hsteps
    rcases List.prefix_concat_iff.mp hsteps with hall | ⟨back, hback⟩
    · rw [hall, ← Path.steps_join plain, Path.follow_steps] at hplace
      simp at hplace
    · have hentry : disk.entry? (Location.follow [] before) = some .directory :=
        Disk.directory_on_walk (hback.symm ▸ walked) there
      have hname : next ∈ Location.follow [] before := by
        rw [hplace]
        exact List.mem_append_right _ (List.mem_singleton_self next)
      have hmem : next ∈ Path.steps whole :=
        (List.IsPrefix.subset ⟨back, hback⟩) (Location.mem_follow hname)
      rw [hplace] at hentry
      rw [Disk.hasEntries_of_entry? (Disk.ne_nil_of_mem_names (Path.mem_steps hmem).1) hentry]
        at nothing
      cases nothing

/-- What a run that has made an instance has shown, and what it leaves. -/
structure Founded (request : Request) (parsed : ParsedGenesis) (whole : Path) (disk : Disk) :
    Prop where
  coherent : disk.Coherent
  unlimited : disk.allowance = none
  named : ∀ working, Path.absolute working request.dataDirectory = .ok whole
  steps : Path.names whole = Path.steps request.dataDirectory
  check : Disk.checkPath request.dataDirectory = .ok ()
  accepted : ParsedGenesis.parse request.genesis = .ok parsed
  room : (Cache.bytes? request.cache).isSome
  stays : (Path.join whole request.name).StaysAbove
  done : ∀ store ∈ storeNames,
    disk.locate (databasePath (Path.join whole request.name) store) =
        .ok (storePlace (Path.join whole request.name) store) ∧
      disk.HasFile (storePlace (Path.join whole request.name) store)
        (.database parsed.mergedTable)

namespace Founded

theorem absolute (founded : Founded request parsed whole disk) : Path.isAbsolute whole :=
  Path.isAbsolute_absolute (founded.named [])

theorem steps_eq (founded : Founded request parsed whole disk) :
    Path.steps whole = Path.steps request.dataDirectory := by
  rw [Path.steps, founded.steps, Path.steps, List.filter_filter]
  simp

/-- The way to the directory of the instance goes by the data directory. -/
theorem steps_front (founded : Founded request parsed whole disk) (plain : request.name.IsPlain) :
    Path.steps request.dataDirectory <+: Path.steps (Path.join whole request.name) := by
  rw [Path.steps_join plain, founded.steps_eq]
  exact List.prefix_append ..

theorem isDirectory_join (founded : Founded request parsed whole disk) :
    disk.isDirectory (Path.join whole request.name) = true := by
  have hjoined := Path.isAbsolute_join founded.absolute request.name
  have hfull : fullStore ∈ storeNames := List.mem_cons_self ..
  have hstore := Disk.isDirectory_of_locate_join databaseName_isPlain
    (Path.ne_nil_of_isAbsolute (Path.isAbsolute_join hjoined fullStore))
    (founded.done fullStore hfull).1
  obtain ⟨location, hlocate, -⟩ := Disk.isDirectory_iff.mp hstore
  exact Disk.isDirectory_of_locate_join (storeNames_plain _ hfull)
    (Path.ne_nil_of_isAbsolute hjoined) hlocate

/-- The way to the directory of the instance is open. -/
theorem isOpen (founded : Founded request parsed whole disk) :
    disk.IsOpen (Path.steps (Path.join whole request.name)) := by
  obtain ⟨location, hlocate, hdirectory⟩ := Disk.isDirectory_iff.mp founded.isDirectory_join
  have hwalk := (Disk.locate_eq_ok_iff.mp hlocate).2.1
  rw [Disk.start_of_absolute (Path.isAbsolute_join founded.absolute request.name)] at hwalk
  exact Disk.isOpen_of_walk (Disk.walk_filter hwalk) hdirectory

theorem isDirectory (founded : Founded request parsed whole disk) (plain : request.name.IsPlain) :
    disk.isDirectory whole = true := by
  obtain ⟨location, hlocate, -⟩ := Disk.isDirectory_iff.mp founded.isDirectory_join
  exact Disk.isDirectory_of_locate_join plain (Path.ne_nil_of_isAbsolute founded.absolute) hlocate

end Founded

section Runs

variable (absolute : Path.isAbsolute request.dataDirectory) (plain : request.name.IsPlain)

include absolute plain

theorem founded_of_create (coherent : host.disk.Coherent) (unlimited : host.disk.allowance = none)
    {clock : Int} (created : create host clock request = (.ok receipt, made)) :
    ∃ parsed, Founded request parsed receipt.dataDirectory made.disk := by
  have hprovision := create_eq_ok created
  rcases refused_or_proceeds host.disk request with
    ⟨_, _, hrefused⟩ | ⟨start, whole, parsed, hr, hvacant, haccepted, hproceeds⟩
  · rw [hrefused.outcome] at hprovision
    cases hprovision
  rw [hproceeds.outcome] at hprovision
  rcases hstores : setupStores start (Path.join whole request.name) parsed request.cache storeNames
    with ⟨_ | _, after⟩
  · rw [hstores] at hprovision
    cases hprovision
  rw [hstores] at hprovision
  obtain ⟨hwhole, hafter⟩ := Prod.mk.inj hprovision
  obtain rfl : whole = receipt.dataDirectory := Except.ok.inj hwhole
  subst hafter
  have hbased := based_iff.mpr hr
  have hresolved := resolveDirectory_ok coherent hr
  have hne := Path.ne_nil_of_absolute hbased.named
  have hsteps : Path.names receipt.dataDirectory = Path.steps request.dataDirectory := by
    have hrelative : Path.isAbsolute request.dataDirectory = false → ∀ name ∈
        host.disk.workingDirectory, name.IsPlain := fun h => by rw [absolute] at h; cases h
    have hnames := Path.names_absolute hrelative hbased.named
    rw [if_pos absolute] at hnames
    exact hnames
  have hthere : start.entry? (directoryPlace receipt.dataDirectory) = some .directory := by
    obtain ⟨location, hlocate, hdirectory⟩ := Disk.isDirectory_iff.mp
      (Disk.isDirectory_of_makeDirectories hne hbased.made)
    rw [Disk.eq_follow_of_locate absolute hlocate, ← hsteps] at hdirectory
    exact hdirectory
  have hnothing := hresolved.noEntries_of_isVacant (above_notMem_of_isPlain plain) hvacant
  have hjoined := Path.isAbsolute_join hresolved.absolute request.name
  have hnone := fun store hs =>
    noFile_of_vacant hresolved.coherent hnothing (storeNames_plain store hs)
  have hunlimited := hresolved.adds.allowance.trans unlimited
  obtain ⟨hopens, hfree⟩ := canOpen_of_setupStores hjoined hresolved.coherent storeNames_plain
    storeNames_nodup hnone hunlimited hstores
  obtain ⟨_, hstores', -, hdone⟩ := setupStores_done hjoined hresolved.coherent storeNames_plain
    storeNames_nodup hnone hunlimited hopens
  rw [hstores] at hstores'
  cases hstores'
  refine ⟨parsed, ?_⟩
  constructor
  case coherent =>
    have hfinal := create_coherent coherent clock request
    rw [created] at hfinal
    exact hfinal
  case unlimited => exact hfree
  case named => exact fun working => (Path.absolute_of_absolute absolute ..).trans hbased.named
  case steps => exact hsteps
  case check => exact Disk.checkPath_of_makeDirectories hne hbased.made
  case accepted => exact haccepted
  case room => exact bytes?_of_openStore (Bool.and_eq_true_iff.mp hopens).1
  case stays => exact stays_of_vacant plain (Disk.walk_filter hresolved.walked) hthere hnothing
  case done => exact hdone

/-! ### After a removal -/

/-- Nothing is in the directory of the instance once the data directory has been made again. -/
theorem absent_of_remade (founded : Founded request parsed receipt.dataDirectory disk)
    {again : Disk}
    (remade : (delete disk receipt).2.makeDirectories request.dataDirectory = (.ok (), again))
    {name : Name} (hname : name ≠ []) : again.entry?
      (directoryPlace (Path.join receipt.dataDirectory request.name) ++ [name]) = none := by
  have hplace : directoryPlace (Path.join receipt.dataDirectory request.name) =
      directoryPlace receipt.dataDirectory ++ [request.name] := directoryPlace_join plain _
  have hwhole : disk.placeOf receipt.dataDirectory = directoryPlace receipt.dataDirectory := by
    rw [Disk.placeOf, Disk.start_of_absolute founded.absolute, directoryPlace]
  have hemptied : Disk.entry? (delete disk receipt).2
      (directoryPlace (Path.join receipt.dataDirectory request.name) ++ [name]) = none := by
    refine entry?_delete_below (founded.isDirectory plain) ?_ ?_ ?_
    · rw [hwhole, hplace, List.append_assoc]
      exact List.prefix_append ..
    · rw [hwhole, hplace]
      simp
    · simp [Location.isDetached, hname]
  by_contra hnew
  obtain ⟨parent, hmem, -, hparent⟩ := Disk.named_of_new absolute hemptied (by
    rw [remade]
    exact hnew)
  have hfront := (Path.steps_of_mem_ancestors absolute parent hmem).2
  have hsame := founded.stays _ (hfront.trans (founded.steps_front plain)) (by
    rw [hparent]
    exact List.prefix_append ..)
  rw [hparent] at hsame
  simp at hsame

/-- The directory of the instance is a site for its stores then, and counts as vacant. -/
theorem site_of_remade (founded : Founded request parsed receipt.dataDirectory disk)
    {again : Disk}
    (remade : (delete disk receipt).2.makeDirectories request.dataDirectory = (.ok (), again)) :
    Site (Path.join receipt.dataDirectory request.name) again storeNames ∧
      again.hasEntries (directoryPlace (Path.join receipt.dataDirectory request.name)) = false ∧
        ∃ vacant, isVacant again (Path.join receipt.dataDirectory request.name) = .ok vacant := by
  have hjoined := Path.isAbsolute_join founded.absolute request.name
  have habsent := @absent_of_remade _ _ _ _ absolute plain founded _ remade
  have hcoherent := (delete_coherent founded.coherent receipt).makeDirectories request.dataDirectory
  have hadds := Disk.makeDirectories_adds (delete disk receipt).2 request.dataDirectory
  rw [remade] at hcoherent hadds
  have hunlimited := (delete_allowance disk receipt).trans founded.unlimited
  have hopen := ((fewer_delete disk receipt).isOpen founded.isOpen).adds hadds
  refine ⟨⟨hcoherent, hadds.allowance.trans hunlimited, hopen, ?_⟩, ?_, ?_⟩
  · exact fun store hs => habsent (storeNames_plain store hs).nonempty
  · rw [Bool.eq_false_iff]
    intro hfull
    obtain ⟨name, entry, hfind⟩ := Disk.hasEntries_iff.mp hfull
    obtain ⟨last, hlast, hname, -⟩ := (hcoherent.placed _ _ hfind).named
    rw [List.getLast?_concat, Option.some.injEq] at hlast
    subst hlast
    rw [← Disk.entry?_append _ hname.nonempty, habsent hname.nonempty] at hfind
    cases hfind
  · obtain ⟨location, hlocate, -⟩ := Disk.isDirectory_iff.mp founded.isDirectory_join
    rcases Disk.locate_of_open hjoined (Disk.locate_eq_ok_iff.mp hlocate).1 hopen with
      hmissing | ⟨hfound, hdirectory⟩
    · exact ⟨_, (isVacant_eq_ok_iff hjoined).mpr (.inl ⟨hmissing, rfl⟩)⟩
    · exact ⟨_, (isVacant_eq_ok_iff hjoined).mpr (.inr ⟨hfound, hdirectory, rfl⟩)⟩

/-- **The same request makes the instance again, unless its path dangles.** -/
theorem create_again (founded : Founded request parsed receipt.dataDirectory disk)
    (free : ¬ request.dataDirectory.Dangles) (lastId : UInt64) (clock : Int) :
    ∃ again after, create ⟨(delete disk receipt).2, lastId⟩ clock request = (.ok again, after) ∧
      again.dataDirectory = receipt.dataDirectory ∧ ∀ store ∈ storeNames,
        after.disk.locate (databasePath (Path.join receipt.dataDirectory request.name) store) =
            .ok (storePlace (Path.join receipt.dataDirectory request.name) store) ∧
          after.disk.HasFile (storePlace (Path.join receipt.dataDirectory request.name) store)
            (.database parsed.mergedTable) := by
  have hcoherent := delete_coherent founded.coherent receipt
  have hopen := (fewer_delete disk receipt).isOpen founded.isOpen
  obtain ⟨remade, hremade⟩ := Disk.makeDirectories_of_not_dangles absolute hcoherent founded.check
    (hopen.front (founded.steps_front plain)) free
  obtain ⟨hsite, hnothing, vacant, hvacant⟩ :=
    site_of_remade absolute plain founded hremade
  have hcheck : ∀ store ∈ storeNames,
      Disk.checkPath (databasePath (Path.join receipt.dataDirectory request.name) store) = .ok () :=
    fun store hs => (Disk.locate_eq_ok_iff.mp (founded.done store hs).1).1
  have hopens : canOpen (Path.join receipt.dataDirectory request.name) parsed request.cache remade
      storeNames := hsite.canOpen (Path.isAbsolute_join founded.absolute request.name) founded.stays
      storeNames_nodup storeNames_plain (by decide) hcheck founded.room
  have hunlimited := (delete_allowance disk receipt).trans founded.unlimited
  obtain ⟨after, hprovision, hdone⟩ := provision_done hcoherent hunlimited
    (based_iff.mp ⟨hremade, founded.named _⟩) hvacant hnothing founded.accepted hopens
  obtain ⟨again, host', hcreate, hdirectory, rfl⟩ :=
    @create_of_provision ⟨(delete disk receipt).2, lastId⟩ request _ after hprovision clock
  exact ⟨again, host', hcreate, hdirectory, hdone⟩

omit absolute in
/-- A directory whose path dangles is removed, for its path does not go through it. -/
theorem delete_of_dangles (founded : Founded request parsed receipt.dataDirectory disk)
    (dangles : request.dataDirectory.Dangles) :
    (delete disk receipt).1 = .ok () ∧
      Disk.entry? (delete disk receipt).2
        (Location.follow [] (Path.steps request.dataDirectory)) = none := by
  obtain ⟨-, front, name, hsteps, habove, hapart⟩ := dangles
  have hnames := founded.steps.trans hsteps
  have hname : name ∈ Path.names request.dataDirectory ∧ name ≠ Path.here :=
    Path.mem_steps (by rw [hsteps]; exact List.mem_append_right _ (List.mem_singleton_self name))
  obtain ⟨location, hlocate, hdirectory⟩ := Disk.isDirectory_iff.mp (founded.isDirectory plain)
  obtain rfl := location_eq_directoryPlace founded.absolute hlocate
  have hplace : Location.follow [] (Path.steps request.dataDirectory) =
      directoryPlace receipt.dataDirectory := by
    rw [directoryPlace, founded.steps]
  have hstart : ∀ disk : Disk, disk.start receipt.dataDirectory = [] :=
    fun _ => Disk.start_of_absolute founded.absolute
  have hwalk := (Disk.locate_eq_ok_iff.mp hlocate).2.1
  rw [hstart, hnames, Disk.walk_append] at hwalk
  obtain ⟨around, hfront, -⟩ := bind_eq_ok_iff.mp hwalk
  rw [hplace] at hapart
  have hcleared := Disk.walk_clear hfront hapart
  have hempty := (disk.clear (directoryPlace receipt.dataDirectory)).removeEmpty_of_names
    (directoryPlace receipt.dataDirectory) hnames
  rw [hstart, hcleared] at hempty
  change _ = (if name = Path.here then _ else if name = Path.above then _ else _) at hempty
  rw [if_neg hname.2, if_neg habove] at hempty
  rw [delete_of_located hlocate hdirectory, hempty]
  refine ⟨rfl, ?_⟩
  rw [hplace]
  refine Disk.entry?_remove_within List.prefix_rfl ?_ ?_
  · rw [← hplace, hsteps, Location.follow_append]
    simp [Location.follow, Location.next_of_plain hname.2 habove]
  · exact Location.attached_follow fun name hn => Disk.ne_nil_of_mem_names hn

/-- And it is not made again. -/
theorem not_create_again (founded : Founded request parsed receipt.dataDirectory disk)
    (dangles : request.dataDirectory.Dangles) (lastId : UInt64) (clock : Int) (again : Receipt) :
    (create ⟨(delete disk receipt).2, lastId⟩ clock request).1 ≠ .ok again := by
  intro hok
  have habsent := (delete_of_dangles plain founded dangles).2
  rcases hcreate : create ⟨(delete disk receipt).2, lastId⟩ clock request with ⟨outcome, after⟩
  rw [hcreate] at hok
  change outcome = _ at hok
  subst hok
  obtain ⟨remade, -, hremade, -⟩ := provision_eq_ok (create_eq_ok hcreate)
  exact Disk.not_makeDirectories_of_dangles absolute dangles habsent remade hremade

end Runs

/-! ### Making, removing, making again -/

/-- A run on a host makes the instance of an earlier run again: with the same data directory, and
with stores that hold what those of the earlier run held. -/
def Recreates (made : Disk) (receipt : Receipt) (request : Request) (host : Host) (clock : Int) :
    Prop :=
  ∃ again after, create host clock request = (.ok again, after) ∧
    again.dataDirectory = receipt.dataDirectory ∧ ∀ store ∈ storeNames,
      ∃ id id' table,
        made.file? (databasePath (Path.join receipt.dataDirectory request.name) store) = some id ∧
          made.contents.find? id = some (.database table) ∧
            after.disk.file? (databasePath (Path.join receipt.dataDirectory request.name) store) =
                some id' ∧
              after.disk.contents.find? id' = some (.database table)

/-- **A removal does what it promises, and after it the same request makes the instance again
exactly if its path does not dangle.** -/
theorem recreates_iff (made : Host) (receipt : Receipt) : Clears made.disk receipt ∧
    ∀ {host : Host} {clock : Int} {request : Request}, host.disk.Coherent →
      host.disk.allowance = none → Path.isAbsolute request.dataDirectory →
        request.name.IsPlain → create host clock request = (.ok receipt, made) →
          ∀ lastId later, Recreates made.disk receipt request
              ⟨(delete made.disk receipt).2, lastId⟩ later ↔ ¬ request.dataDirectory.Dangles := by
  refine ⟨clears made.disk receipt, ?_⟩
  intro host clock request coherent unlimited absolute plain created lastId later
  obtain ⟨parsed, hfounded⟩ := founded_of_create absolute plain coherent unlimited created
  constructor
  · rintro ⟨again, after, hcreate, -⟩ hdangles
    exact not_create_again absolute plain hfounded hdangles lastId later again
      (by rw [hcreate])
  · intro hfree
    obtain ⟨again, after, hcreate, hdirectory, hdone⟩ :=
      create_again absolute plain hfounded hfree lastId later
    refine ⟨again, after, hcreate, hdirectory, fun store hs => ?_⟩
    obtain ⟨hlocated, hfile⟩ := hfounded.done store hs
    obtain ⟨hlocated', hfile'⟩ := hdone store hs
    obtain ⟨id, hid, hcontent⟩ := file?_of_located hlocated hfile
    obtain ⟨id', hid', hcontent'⟩ := file?_of_located hlocated' hfile'
    exact ⟨id, id', _, hid, hcontent, hid', hcontent'⟩

/-- A path that ends in a dot, and has been to the directory before it leads there. -/
def roundRequest : Request :=
  { leastRequest with dataDirectory := ['/', 'a', '/', '.', '.', '/', 'a', '/', '.'] }

theorem recreates_round : ∃ receipt made, create ⟨{}, 0⟩ 0 roundRequest = (.ok receipt, made) ∧
    ¬ roundRequest.dataDirectory.Dangles ∧
      Recreates made.disk receipt roundRequest ⟨(delete made.disk receipt).2, made.lastId⟩ 0 := by
  obtain ⟨parsed, accepted⟩ := leastRequest_accepted
  obtain ⟨receipt, made, hcreate, -⟩ := @create_records parsed ⟨{}, 0⟩ Disk.coherent_empty 0
    roundRequest ['/', 'a', '/', '.', '.', '/', 'a'] { tree := [([['a']], .directory)] } true
    rfl rfl rfl rfl accepted rfl
  have hfree : ¬ roundRequest.dataDirectory.Dangles := by
    rintro ⟨-, front, name, hsteps, -, hapart⟩
    have hfront : front = [['a'], Path.above] :=
      (List.append_inj' (hsteps.symm.trans (b := [['a'], Path.above] ++ [['a']]) rfl) rfl).1
    exact hapart [['a']] (hfront ▸ ⟨[Path.above], rfl⟩) rfl
  exact ⟨receipt, made, hcreate, hfree,
    ((recreates_iff made receipt).2 Disk.coherent_empty rfl rfl (by decide) hcreate _ 0).mpr hfree⟩

/-- A path that ends in a dot behind a directory that is there. -/
def dottedRequest : Request :=
  { leastRequest with dataDirectory := ['/', 'a', '/', '.'] }

/-- The run goes through and so does the removal, but then the directory is missing, and its path
does not make it. -/
theorem not_recreates_dotted : ∃ receipt made,
    create ⟨{ tree := [([['a']], .directory)] }, 0⟩ 0 dottedRequest = (.ok receipt, made) ∧
      (delete made.disk receipt).1 = .ok () ∧ ∀ lastId later, ¬ Recreates made.disk receipt
        dottedRequest ⟨(delete made.disk receipt).2, lastId⟩ later := by
  have hcoherent : Disk.Coherent { tree := [([['a']], .directory)] } :=
    Disk.coherent_empty.makeDirectories ['/', 'a']
  obtain ⟨parsed, accepted⟩ := leastRequest_accepted
  obtain ⟨receipt, made, hcreate, -⟩ := @create_records parsed
    ⟨{ tree := [([['a']], .directory)] }, 0⟩ hcoherent 0 dottedRequest ['/', 'a']
    { tree := [([['a']], .directory)] } true rfl rfl rfl rfl accepted rfl
  have hplain : dottedRequest.name.IsPlain := by decide
  obtain ⟨parsed, hfounded⟩ := founded_of_create rfl hplain hcoherent rfl hcreate
  have hdangles : dottedRequest.dataDirectory.Dangles := by
    refine ⟨rfl, [], ['a'], rfl, by decide, ?_⟩
    rintro before hbefore hplace
    rw [List.prefix_nil.mp hbefore] at hplace
    cases hplace
  refine ⟨receipt, made, hcreate, (delete_of_dangles hplain hfounded hdangles).1, ?_⟩
  rintro lastId later ⟨again, after, hagain, -⟩
  exact not_create_again rfl hplain hfounded hdangles lastId later again (by rw [hagain])

end Instance
end Provision
