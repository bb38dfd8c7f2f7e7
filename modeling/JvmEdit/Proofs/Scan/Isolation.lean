import JvmEdit.Libraries.Standard
import JvmEdit.Proofs.ClassFile.Bodies
import JvmEdit.Proofs.Program.Loading
import JvmEdit.Scan
set_option autoImplicit false

namespace JvmEdit

namespace ClassFile

section Trimmed

variable [Libraries] {skipDebug : Bool} {bytes : List UInt8} {raw : RawClass}

theorem decode_parsed (accepted : Libraries.classFileFault? bytes = none)
    (parsed : parse (readClass skipDebug) bytes = .ok raw) :
    decode bytes skipDebug = .ok ((fun events => ⟨raw.header.name, events⟩) <$> events raw) := by
  rw [decode, accepted, parsed]
  rfl

theorem decode_trimmed (accepted : Libraries.classFileFault? bytes = none)
    (parsed : parse (readClass skipDebug) bytes = .ok raw) : ∃ file told,
      sections bytes = .ok file ∧ file.bytes = bytes ∧ decode bytes skipDebug = .ok told ∧
      parse (readClass skipDebug) (file.trimmed raw).bytes = .ok raw.trimmed ∧
      (Libraries.classFileFault? (file.trimmed raw).bytes = none →
        decode (file.trimmed raw).bytes skipDebug = .ok (pure told.value)) := by
  obtain ⟨file, header, found, same, means⟩ := sections_of_parse parsed
  have trimmed := parse_of_means (means_trimmed means)
  refine ⟨file, _, found, same, decode_parsed accepted parsed, trimmed, ?_⟩
  intro acceptedTrimmed
  rw [decode_parsed acceptedTrimmed trimmed, events_trimmed]
  rfl

end Trimmed

end ClassFile

-- The source can be decoded.
def ClassSource.isReadable [Libraries] (skipDebug : Bool) (source : ClassSource) : Bool :=
  (ClassFile.decode source.bytes skipDebug).isOk

theorem Logged.value_foldl_m {α β : Type} (f : β → α → Logged β) (xs : List α) (init : β) :
    (xs.foldlM f init).value = xs.foldl (fun b x => (f b x).value) init := by
  induction xs generalizing init with
  | nil => rfl
  | cons x xs ih =>
      rw [List.foldlM_cons, List.foldl_cons, ← ih]
      rfl

theorem Program.settings_load_step {fits : Stream → Prop} (p q : Program) (step : LoadStep fits p q) :
    q.settings = p.settings := by
  cases step <;> rfl

theorem Program.settings_load (p : Program) (events : List ClassEvent) :
    (p.load events).value.program.settings = p.settings := by
  have run : ∀ b : Builder, (b.run events).program.settings = b.program.settings := by
    induction events with
    | nil => exact fun _ => rfl
    | cons event events ih =>
        intro b
        have first := Builder.step_induct (fun _ => True) (fun q => q.settings = b.program.settings)
          (fun p q step same => (Program.settings_load_step p q step).trans same) b event trivial rfl
        exact (ih (b.step event)).trans first
  exact run (.new p)

namespace Scanned

-- So many more classes have been given up.
def failing (s : Scanned) (count : Nat) : Scanned :=
  { s with output.decodeFailures := s.output.decodeFailures + count }

def withFailures (s : Scanned) (count : Nat) : Scanned :=
  { s with output.decodeFailures := count }

-- The last steps of a scan, after all sources are decoded.
def analysed [Libraries] (s : Scanned) : Scanned :=
  let built := s.program.linkHierarchy.resolveAll.1.buildAll.value
  { program := built, output := { s.output with flowFailures := built.flowFailures.length } }

theorem analysed_with_failures [Libraries] (s : Scanned) (count : Nat) :
    (s.withFailures count).analysed = s.analysed.withFailures count := rfl

theorem failures_analysed [Libraries] (s : Scanned) :
    s.analysed.output.decodeFailures = s.output.decodeFailures := rfl

section Sources

variable [Libraries]

-- What a source makes of a scan, its warnings apart.
def loading (s : Scanned) (source : ClassSource) : Scanned := (s.loadSource source).value

-- The program with all sources decoded into it, before any of it is linked.
def decoded (p : Program) (c : Collection) : Logged Scanned :=
  c.sources.foldlM loadSource { program := p, output.artifacts := c.artifacts }

-- A class that has been decoded enters the program, and so do the source it came from and its order.
def entering (s : Scanned) (origin : String) (events : List ClassEvent) : Scanned :=
  let loaded := (s.program.load events).value
  { program := loaded.program
    output := { s.output with
      classes := s.output.classes ++ loaded.created
      origins := s.output.origins ++ loaded.created.map fun id => (id, origin) } }

theorem value_decoded (p : Program) (c : Collection) : (decoded p c).value =
    c.sources.foldl loading { program := p, output.artifacts := c.artifacts } :=
  Logged.value_foldl_m ..

theorem value_of_collection (p : Program) (c : Collection) :
    (ofCollection p c).value = (decoded p c).value.analysed := rfl

theorem loading_error {s : Scanned} {source : ClassSource} {e : DecodeError}
    (failed : ClassFile.decode source.bytes s.program.settings.skipDebug = .error e) :
    s.loading source = s.failing 1 := by
  rw [loading, loadSource, failed]
  rfl

theorem loading_ok {s : Scanned} {source : ClassSource} {told : Logged ClassFile.Decoded}
    (decoded : ClassFile.decode source.bytes s.program.settings.skipDebug = .ok told) :
    s.loading source = s.entering source.origin told.value.events := by
  rw [loading, loadSource, decoded]
  rfl

theorem settings_loading (s : Scanned) (source : ClassSource) :
    (s.loading source).program.settings = s.program.settings := by
  cases decoded : ClassFile.decode source.bytes s.program.settings.skipDebug with
  | error e =>
      rw [loading_error decoded]
      rfl
  | ok told =>
      rw [loading_ok decoded]
      exact Program.settings_load ..

theorem loading_failing (s : Scanned) (count : Nat) (source : ClassSource) :
    (s.failing count).loading source = (s.loading source).failing count := by
  cases decoded : ClassFile.decode source.bytes s.program.settings.skipDebug with
  | error e =>
      have same : (s.failing count).program = s.program := rfl
      rw [loading_error decoded, loading_error (same ▸ decoded)]
      simp only [failing, Nat.add_right_comm]
  | ok told =>
      rw [loading_ok decoded]
      exact loading_ok (s := s.failing count) decoded

theorem foldl_failing (sources : List ClassSource) (s : Scanned) (count : Nat) :
    sources.foldl loading (s.failing count) =
      (sources.foldl loading s).failing count := by
  induction sources generalizing s with
  | nil => rfl
  | cons source sources ih => rw [List.foldl_cons, List.foldl_cons, loading_failing, ih]

theorem foldl_readable (skipDebug : Bool) (sources : List ClassSource) (s : Scanned)
    (settings : s.program.settings.skipDebug = skipDebug) :
    sources.foldl loading s =
      ((sources.filter (ClassSource.isReadable skipDebug)).foldl loading s).withFailures
        (s.output.decodeFailures +
          (sources.filter fun source => !source.isReadable skipDebug).length) := by
  induction sources generalizing s with
  | nil => rfl
  | cons source sources ih =>
      have later := ih (s.loading source) (by rw [settings_loading, settings])
      rw [List.foldl_cons, later]
      cases decoded : ClassFile.decode source.bytes skipDebug with
      | error e =>
          have unreadable : source.isReadable skipDebug = false := by
            rw [ClassSource.isReadable, decoded]
            rfl
          rw [loading_error (settings ▸ decoded), foldl_failing,
            List.filter_cons_of_neg (by simp [unreadable]), List.filter_cons_of_pos (by simp [unreadable]),
            List.length_cons, Nat.add_comm _ 1, ← Nat.add_assoc]
          rfl
      | ok told =>
          have readable : source.isReadable skipDebug = true := by
            rw [ClassSource.isReadable, decoded]
            rfl
          have kept : (s.loading source).output.decodeFailures = s.output.decodeFailures := by
            rw [loading_ok (settings ▸ decoded)]
            rfl
          rw [List.filter_cons_of_pos readable, List.filter_cons_of_neg (by simp [readable]),
            List.foldl_cons, kept]

theorem decoded_readable (p : Program) (c : Collection) :
    (decoded p c).value = (decoded p { c with
      sources := c.sources.filter (ClassSource.isReadable p.settings.skipDebug) }).value.withFailures
        (c.sources.filter fun source => !source.isReadable p.settings.skipDebug).length := by
  rw [value_decoded, value_decoded, foldl_readable p.settings.skipDebug c.sources _ rfl]
  exact congrArg _ (Nat.zero_add _)

theorem failures_readable (p : Program) (c : Collection) :
    (decoded p { c with
      sources := c.sources.filter (ClassSource.isReadable p.settings.skipDebug)
    }).value.output.decodeFailures = 0 := by
  rw [decoded_readable]
  change List.length _ = 0
  rw [List.length_eq_zero_iff, List.filter_filter, List.filter_eq_nil_iff]
  intro source _
  cases source.isReadable p.settings.skipDebug <;> decide

theorem settings_foldl (sources : List ClassSource) (s : Scanned) :
    (sources.foldl loading s).program.settings = s.program.settings := by
  induction sources generalizing s with
  | nil => rfl
  | cons source sources ih => rw [List.foldl_cons, ih, settings_loading]

theorem decoded_exchange (p : Program) (c : Collection) (origin : String) (bytes bytes' : List UInt8)
    (before after : List ClassSource) (told told' : Logged ClassFile.Decoded)
    (reads : ClassFile.decode bytes p.settings.skipDebug = .ok told)
    (reads' : ClassFile.decode bytes' p.settings.skipDebug = .ok told')
    (same : told.value = told'.value) :
    (decoded p { c with sources := before ++ ⟨origin, bytes⟩ :: after }).value =
      (decoded p { c with sources := before ++ ⟨origin, bytes'⟩ :: after }).value := by
  have settings := settings_foldl before { program := p, output.artifacts := c.artifacts }
  rw [value_decoded, value_decoded, List.foldl_append, List.foldl_append, List.foldl_cons,
    List.foldl_cons, loading_ok (settings ▸ reads), loading_ok (settings ▸ reads'), same]

end Sources

-- Sources that cannot be decoded can be left out: the program is the same after every step of the scan,
-- with the same identities, and the sources left out are counted. And a class whose structure can be
-- read is told of as it is without the code that cannot be read: the file without that code is one whose
-- methods have no such code, and it can stand in for the file in any scan.
theorem faults_isolated [Libraries] (p : Program) (c : Collection) :
    let skipDebug := p.settings.skipDebug
    let readable := c.sources.filter (ClassSource.isReadable skipDebug)
    let removed := c.sources.filter fun source => !source.isReadable skipDebug
    let decoded := fun sources => (decoded p { c with sources }).value
    let scanned := fun sources => (ofCollection p { c with sources }).value
    (decoded c.sources = (decoded readable).withFailures removed.length ∧
      scanned c.sources = (scanned readable).withFailures removed.length ∧
      (scanned readable).output.decodeFailures = 0) ∧
    ∀ bytes raw, Libraries.classFileFault? bytes = none →
      ClassFile.parse (ClassFile.readClass skipDebug) bytes = .ok raw →
      ∃ file told, ClassFile.sections bytes = .ok file ∧ file.bytes = bytes ∧
        ClassFile.decode bytes skipDebug = .ok told ∧
        ClassFile.parse (ClassFile.readClass skipDebug) (file.trimmed raw).bytes = .ok raw.trimmed ∧
        (Libraries.classFileFault? (file.trimmed raw).bytes = none →
          ClassFile.decode (file.trimmed raw).bytes skipDebug = .ok (pure told.value) ∧
          ∀ origin before after,
            scanned (before ++ ⟨origin, bytes⟩ :: after) =
              scanned (before ++ ⟨origin, (file.trimmed raw).bytes⟩ :: after)) := by
  intro skipDebug readable removed decoded scanned
  have whole : decoded c.sources = (decoded readable).withFailures removed.length :=
    decoded_readable p c
  have wholeScan : scanned c.sources = (scanned readable).withFailures removed.length := by
    calc scanned c.sources
      _ = (decoded c.sources).analysed := value_of_collection ..
      _ = (decoded readable).analysed.withFailures removed.length := by
        rw [whole, analysed_with_failures]
      _ = (scanned readable).withFailures removed.length := by
        rw [← value_of_collection]
  have none : (scanned readable).output.decodeFailures = 0 := by
    calc (scanned readable).output.decodeFailures
      _ = (decoded readable).analysed.output.decodeFailures := by rw [← value_of_collection]
      _ = (decoded readable).output.decodeFailures := failures_analysed _
      _ = 0 := failures_readable p c
  refine ⟨⟨whole, wholeScan, none⟩, ?_⟩
  intro bytes raw accepted parsed
  obtain ⟨file, told, found, same, isTold, trimmed, again⟩ :=
    ClassFile.decode_trimmed accepted parsed
  refine ⟨file, told, found, same, isTold, trimmed, ?_⟩
  intro acceptedTrimmed
  have retold := again acceptedTrimmed
  refine ⟨retold, ?_⟩
  intro origin before after
  have exchanged := decoded_exchange p c origin _ _ before after told _ isTold retold rfl
  calc scanned (before ++ ⟨origin, bytes⟩ :: after)
    _ = (decoded (before ++ ⟨origin, bytes⟩ :: after)).analysed := value_of_collection ..
    _ = (decoded (before ++ ⟨origin, (file.trimmed raw).bytes⟩ :: after)).analysed :=
      congrArg analysed exchanged
    _ = scanned (before ++ ⟨origin, (file.trimmed raw).bytes⟩ :: after) :=
      (value_of_collection ..).symm

-- A class with two methods: the code of the first holds a byte that is no instruction, and the second
-- jumps to its last instruction.
def spoiled : List UInt8 :=
  [0xca, 0xfe, 0xba, 0xbe, 0, 0, 0, 52,
    -- the pool: a class and its name, the names of the methods, their descriptor, and "Code"
    0, 7, 1, 0, 1, 65, 7, 0, 1, 1, 0, 1, 102, 1, 0, 1, 103, 1, 0, 3, 40, 41, 86,
    1, 0, 4, 67, 111, 100, 101,
    0, 33, 0, 2, 0, 0, 0, 0, 0, 0, 0, 2,
    0, 9, 0, 3, 0, 5, 0, 1, 0, 6, 0, 0, 0, 13, 0, 0, 0, 0, 0, 0, 0, 1, 0xff, 0, 0, 0, 0,
    0, 9, 0, 4, 0, 5, 0, 1, 0, 6, 0, 0, 0, 16, 0, 0, 0, 0, 0, 0, 0, 4, 0xa7, 0, 3, 0xb1, 0, 0, 0, 0,
    0, 0]

def mixed : Collection where
  sources := [⟨"torn", [0xca]⟩, ⟨"spoiled", spoiled⟩]

theorem faults_isolated_mixed :
    let scanned := fun sources =>
      (ofCollection (.new {}) { mixed with sources }).value
    scanned mixed.sources = (scanned [⟨"spoiled", spoiled⟩]).withFailures 1 ∧
      ∃ raw file, ClassFile.parse (ClassFile.readClass true) spoiled = .ok raw ∧
        ClassFile.sections spoiled = .ok file ∧ file.bytes = spoiled ∧
        raw.methods.map (·.isFaulty raw.pool) = [true, false] ∧
        Libraries.classFileFault? spoiled = none ∧
        Libraries.classFileFault? (file.trimmed raw).bytes = none ∧
        scanned mixed.sources = scanned [⟨"torn", [0xca]⟩, ⟨"spoiled", (file.trimmed raw).bytes⟩] := by
  intro scanned
  obtain ⟨⟨_, left, _⟩, bodies⟩ := faults_isolated (.new {}) mixed
  have readable : mixed.sources.filter (ClassSource.isReadable
      (Program.new {}).settings.skipDebug) = [⟨"spoiled", spoiled⟩] := by decide +kernel
  have removed : mixed.sources.filter (fun source => !source.isReadable
      (Program.new {}).settings.skipDebug) = [⟨"torn", [0xca]⟩] := by decide +kernel
  rw [readable, removed] at left
  refine ⟨left, ?_⟩
  have accepted : Libraries.classFileFault? spoiled = none := by decide +kernel
  have facts : ((ClassFile.parse (ClassFile.readClass true) spoiled).toOption.bind fun raw =>
      (ClassFile.sections spoiled).toOption.map fun file =>
        (raw.methods.map (·.isFaulty raw.pool), Libraries.classFileFault? (file.trimmed raw).bytes)) =
          some ([true, false], none) := by decide +kernel
  cases parsed : ClassFile.parse (ClassFile.readClass true) spoiled with
  | error e =>
      rw [parsed] at facts
      cases facts
  | ok raw =>
      obtain ⟨file, told, found, same, _, _, again⟩ := bodies spoiled raw accepted parsed
      rw [parsed, found] at facts
      obtain ⟨faulty, acceptedTrimmed⟩ := Prod.ext_iff.mp (Option.some.inj facts)
      have exchanged := (again acceptedTrimmed).2 "spoiled" [⟨"torn", [0xca]⟩] []
      exact ⟨raw, file, rfl, found, same, faulty, accepted, acceptedTrimmed, exchanged⟩

end Scanned

end JvmEdit
