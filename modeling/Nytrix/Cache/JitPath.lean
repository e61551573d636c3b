import Nytrix.Types.Names
import Mathlib.Data.Nat.Digits.Lemmas

/-! The names of the files of compiled modules: on what they depend, and when two are the same. -/

namespace Nytrix.Cache

open Nytrix.Types (nm ch)

/-- A text in memory: its bytes before the zero byte that ends it. -/
abbrev Text := List UInt8

/-- A word of the machine. -/
abbrev Word := BitVec 64

/-- The hash of a text; its bytes count with their sign. -/
def nyHashString (str : Text) : Word :=
  str.foldl (fun hash c => (hash <<< 5) + hash + (BitVec.signExtend 64 c.toBitVec)) 5381

/-- The basis of the other hash. -/
def fnvOffsetBasis : Word := 14695981039346656037

/-- The factor of the other hash. -/
def fnvPrime : Word := 1099511628211

/-- The other hash of a text that may be missing, from a seed on. -/
def nyFnv1a64Cstr (s : Option Text) (seed : Word) : Word :=
  (s.getD []).foldl (fun h c => (h ^^^ BitVec.setWidth 64 c.toBitVec) * fnvPrime)
    (if seed = 0 then fnvOffsetBasis else seed)

/-- The values of the variables of the environment. -/
abbrev Environment := Text → Option Text

/-- The hash of the values of some variables, from a hash on. -/
def nyHashEnvv (h : Word) (getenv : Environment) (names : List String) : Word :=
  names.foldl (fun h name => nyFnv1a64Cstr (getenv (nm name)) h) h

/-- Whether a value turns a switch on. -/
def nyEnvIsTruthy (value : Option Text) : Bool :=
  match value with
  | none => false
  | some v => v ≠ [] &&
      !(["0", "false", "False", "FALSE", "off", "OFF", "no", "NO"].map nm).contains v

/-- Whether a variable turns a switch on. -/
def nyEnvEnabled (getenv : Environment) (name : String) : Bool := nyEnvIsTruthy (getenv (nm name))

/-- The variables whose values are part of the name. -/
def jitCacheEnvs : List String :=
  ["NYTRIX_COMPILER_ASSERTS", "NYTRIX_DEBUG_LOCALS", "NYTRIX_DWARF_VERSION",
    "NYTRIX_DWARF_SPLIT_INLINING", "NYTRIX_DWARF_PROFILE_INFO", "NYTRIX_HOST_TRIPLE",
    "NYTRIX_HOST_CFLAGS", "NYTRIX_HOST_LDFLAGS", "NYTRIX_ARM_FLOAT_ABI", "NYTRIX_OWNERSHIP",
    "NYTRIX_OWNERSHIP_STRICT", "NYTRIX_OPT_PROFILE", "NYTRIX_MONO_TYPES",
    "NYTRIX_ENABLE_MONOMORPHIZATION", "NYTRIX_DISABLE_MONO_TYPES",
    "NYTRIX_DISABLE_MONOMORPHIZATION", "NYTRIX_MONO_IMPERATIVE",
    "NYTRIX_SIMPLE_RAW_INT_CALL_FAST", "NYTRIX_FAST_ALL_PROFILES",
    "NYTRIX_PROVEN_RAW_INT_EXPR_FAST", "NYTRIX_RAW_INT_EXPR_FAST",
    "NYTRIX_RAW_INT_SLOT_EXPR_FAST", "NYTRIX_RAW_INT_EXPR_FAST_OPS",
    "NYTRIX_RAW_INT_EXPR_ADDSUB_FAST", "NYTRIX_RAW_INT_EXPR_MUL_FAST", "NYTRIX_RAW_INT_HELPERS",
    "NYTRIX_UNTAGGED_INT_LIST_STORAGE", "NYTRIX_CONST_STRING_GLOBAL_INIT",
    "NYTRIX_PROVEN_INT_CAST_FAST", "NYTRIX_PROVEN_INT_BRANCH_EQ_FAST",
    "NYTRIX_PROVEN_INT_BRANCH_FAST", "NYTRIX_PROVEN_INT_MOD_FAST", "NYTRIX_PRINT_PROVEN_INT_FAST",
    "NYTRIX_PRINT_PROVEN_STR_FAST"]

/-- What a module is compiled for. -/
structure Settings where
  stdlibPath : Option Text
  stdSrcHash : Word
  optLevel : BitVec 32
  optDce : BitVec 32
  optInternalize : BitVec 32
  debugSymbols : Bool
  getenv : Environment

/-- What else the name depends on: the compiler, the library on disk, and where the files are. -/
structure Host where
  dir : Text
  useIr : Bool
  strictMtime : Bool
  mtime : Text → Option Word
  stdLatestMtime : Word
  llvmVersion : Option Text
  version : Text
  versionCommit : Option Text
  versionDirty : Option Word
  compilerHash : Word

/-- A word that counts if a switch is on. -/
def switchWord (on : Bool) (w : Word) : Word := if on then w else 0

/-- A word that counts if a variable turns a switch on. -/
def envWord (s : Settings) (name : String) (w : Word) : Word :=
  switchWord (nyEnvEnabled s.getenv name) w

/-- A whole number of the options as a word. -/
def intWord (value : BitVec 32) : Word := value.signExtend 64

/-- The version of the names. -/
def jitCacheVersion : Word := 25

/-- What the library contributes to the name. -/
def stdWord (host : Host) (s : Settings) : Word :=
  match s.stdlibPath with
  | none => 0
  | some path =>
    (if s.stdSrcHash ≠ 0 then s.stdSrcHash
      else if host.strictMtime then (host.mtime path).getD 0 else 0) ^^^ nyHashString path

/-- What the build of the compiler contributes to the name, as far as it is before the options. -/
def buildWord (host : Host) : Word :=
  (switchWord host.strictMtime host.stdLatestMtime) ^^^
    ((host.llvmVersion.map nyHashString).getD 0 ^^^ (nyHashString host.version ^^^
      ((host.versionCommit.map nyHashString).getD 0 ^^^ host.versionDirty.getD 0)))

/-- The word of the settings in the name. -/
def stdHash (host : Host) (s : Settings) : Word :=
  stdWord host s ^^^ buildWord host ^^^ intWord s.optLevel ^^^ intWord s.optDce ^^^
    intWord s.optInternalize ^^^ switchWord s.debugSymbols 0xDEADBEEF ^^^
    envWord s "NYTRIX_FAST_MODE" 0xCAFEBABE ^^^ envWord s "NYTRIX_FAST_INT_BINOPS" 0x12345678 ^^^
    envWord s "NYTRIX_FAST_FLOAT_BINOPS" 0x87654321 ^^^ envWord s "NYTRIX_ASSUME_INT" 0xA5A5A5A5 ^^^
    envWord s "NYTRIX_TRACE" 0x71726163655 ^^^ nyHashEnvv fnvOffsetBasis s.getenv jitCacheEnvs ^^^
    host.compilerHash ^^^ jitCacheVersion

/-- A digit of a hexadecimal number. -/
def hexDigit (d : Nat) : UInt8 := UInt8.ofNat (if d < 10 then 48 + d else 87 + d)

/-- A word as a hexadecimal number. -/
def hexText (w : Word) : Text :=
  if w = 0 then nm "0" else ((Nat.digits 16 w.toNat).map hexDigit).reverse

/-- The length of the buffer for a name. -/
def pathBuffer : Nat := 1024

/-- The name of the file of a compiled module; what does not fit into the buffer is cut off. -/
def nyJitCachePath (host : Host) (source : Text) (s : Settings) : Text :=
  (host.dir ++ nm "/" ++ hexText (nyHashString source) ++ nm "_" ++ hexText (stdHash host s) ++
    nm "." ++ nm (if host.useIr then "ll" else "bc")).take (pathBuffer - 1)

section Names

theorem hexDigit_inj {d e : Nat} (small : d < 16) (small' : e < 16)
    (same : hexDigit d = hexDigit e) : d = e := by
  have values := congrArg UInt8.toNat same
  unfold hexDigit at values
  rw [UInt8.toNat_ofNat_of_lt' (by unfold UInt8.size; split <;> omega),
    UInt8.toNat_ofNat_of_lt' (by unfold UInt8.size; split <;> omega)] at values
  split at values <;> split at values <;> omega

theorem map_hexDigit_inj {ds es : List Nat} (small : ∀ d ∈ ds, d < 16) (small' : ∀ e ∈ es, e < 16)
    (same : ds.map hexDigit = es.map hexDigit) : ds = es := by
  induction ds generalizing es with
  | nil => exact (List.map_eq_nil_iff.mp same.symm).symm
  | cons d ds ih =>
    cases es with
    | nil => cases same
    | cons e es =>
      simp only [List.map_cons, List.cons.injEq] at same
      have head := hexDigit_inj (small d List.mem_cons_self) (small' e List.mem_cons_self) same.1
      have tail := ih (fun x member => small x (List.mem_cons_of_mem d member))
        (fun x member => small' x (List.mem_cons_of_mem e member)) same.2
      rw [head, tail]

theorem hexText_eq (w : Word) : hexText w =
    ((if w = 0 then [0] else Nat.digits 16 w.toNat).map hexDigit).reverse := by
  unfold hexText
  split <;> rfl

theorem hexText_inj {v w : Word} (same : hexText v = hexText w) : v = w := by
  have small (w : Word) : ∀ d ∈ (if w = 0 then [0] else Nat.digits 16 w.toNat), d < 16 := by
    intro d member
    split at member
    · simp only [List.mem_singleton] at member
      omega
    · exact Nat.digits_lt_base (by decide) member
  have value (w : Word) :
      Nat.ofDigits 16 (if w = 0 then [0] else Nat.digits 16 w.toNat) = w.toNat := by
    split
    · rename_i zero
      simp [zero]
    · exact Nat.ofDigits_digits 16 _
  rw [hexText_eq, hexText_eq, List.reverse_inj] at same
  have digits := map_hexDigit_inj (small v) (small w) same
  apply BitVec.eq_of_toNat_eq
  rw [← value v, ← value w, digits]

theorem length_hexText (w : Word) : (hexText w).length ≤ 16 := by
  rw [hexText_eq, List.length_reverse, List.length_map]
  split
  · simp
  · exact (Nat.digits_length_le_iff (by decide) _).mpr (Nat.lt_of_lt_of_le w.isLt (by decide))

theorem nyJitCachePath_whole {host : Host} (fits : host.dir.length ≤ 986) (source : Text)
    (s : Settings) : nyJitCachePath host source s = host.dir ++ nm "/" ++
      hexText (nyHashString source) ++ nm "_" ++ hexText (stdHash host s) ++ nm "." ++
        nm (if host.useIr then "ll" else "bc") := by
  have first := length_hexText (nyHashString source)
  have second := length_hexText (stdHash host s)
  have slash : (nm "/").length = 1 := rfl
  have joint : (nm "_").length = 1 := rfl
  have point : (nm ".").length = 1 := rfl
  have extension : (nm (if host.useIr then "ll" else "bc")).length = 2 := by
    cases host.useIr <;> rfl
  unfold nyJitCachePath
  apply List.take_of_length_le
  simp only [List.length_append, pathBuffer]
  omega

theorem nyJitCachePath_eq_iff {host : Host} (fits : host.dir.length ≤ 986) (source : Text)
    (a b : Settings) :
    nyJitCachePath host source a = nyJitCachePath host source b ↔
      stdHash host a = stdHash host b := by
  rw [nyJitCachePath_whole fits, nyJitCachePath_whole fits]
  constructor
  · intro same
    simp only [List.append_assoc, List.append_cancel_left_eq] at same
    exact hexText_inj (List.append_cancel_right same)
  · exact fun same => by rw [same]

end Names

section Separation

/-- A word that counts if two environments differ in a switch. -/
def envDifference (a b : Settings) (name : String) (w : Word) : Word :=
  switchWord (nyEnvEnabled a.getenv name != nyEnvEnabled b.getenv name) w

/-- The exclusive or of what two settings contribute to the name where they differ. -/
def difference (host : Host) (a b : Settings) : Word :=
  (stdWord host a ^^^ stdWord host b) ^^^ (intWord a.optLevel ^^^ intWord b.optLevel) ^^^
    (intWord a.optDce ^^^ intWord b.optDce) ^^^
    (intWord a.optInternalize ^^^ intWord b.optInternalize) ^^^
    switchWord (a.debugSymbols != b.debugSymbols) 0xDEADBEEF ^^^
    envDifference a b "NYTRIX_FAST_MODE" 0xCAFEBABE ^^^
    envDifference a b "NYTRIX_FAST_INT_BINOPS" 0x12345678 ^^^
    envDifference a b "NYTRIX_FAST_FLOAT_BINOPS" 0x87654321 ^^^
    envDifference a b "NYTRIX_ASSUME_INT" 0xA5A5A5A5 ^^^
    envDifference a b "NYTRIX_TRACE" 0x71726163655 ^^^
    (nyHashEnvv fnvOffsetBasis a.getenv jitCacheEnvs ^^^
      nyHashEnvv fnvOffsetBasis b.getenv jitCacheEnvs)

theorem switchWord_xor (a b : Bool) (w : Word) :
    switchWord a w ^^^ switchWord b w = switchWord (a != b) w := by
  cases a <;> cases b <;> simp [switchWord]

theorem stdHash_xor (host : Host) (a b : Settings) :
    stdHash host a ^^^ stdHash host b = difference host a b := by
  -- What does not depend on the settings stands behind what does, and cancels.
  have parts (s : Settings) : stdHash host s = (stdWord host s ^^^ intWord s.optLevel ^^^
      intWord s.optDce ^^^ intWord s.optInternalize ^^^ switchWord s.debugSymbols 0xDEADBEEF ^^^
      envWord s "NYTRIX_FAST_MODE" 0xCAFEBABE ^^^ envWord s "NYTRIX_FAST_INT_BINOPS" 0x12345678 ^^^
      envWord s "NYTRIX_FAST_FLOAT_BINOPS" 0x87654321 ^^^
      envWord s "NYTRIX_ASSUME_INT" 0xA5A5A5A5 ^^^ envWord s "NYTRIX_TRACE" 0x71726163655 ^^^
      nyHashEnvv fnvOffsetBasis s.getenv jitCacheEnvs) ^^^
      (buildWord host ^^^ host.compilerHash ^^^ jitCacheVersion) := by
    unfold stdHash
    ac_rfl
  have cancel (x y z : Word) : x ^^^ z ^^^ (y ^^^ z) = x ^^^ y := by
    rw [BitVec.xor_comm y z, BitVec.xor_assoc x, ← BitVec.xor_assoc z, BitVec.xor_self,
      BitVec.zero_xor]
  rw [parts a, parts b, cancel, difference]
  simp only [envDifference, envWord, ← switchWord_xor]
  ac_rfl

theorem difference_eq_zero_iff (host : Host) (a b : Settings) :
    difference host a b = 0 ↔ stdHash host a = stdHash host b := by
  rw [← stdHash_xor]
  exact BitVec.xor_eq_zero_iff

/-- Names differ exactly if what the settings contribute where they differ does not cancel. -/
theorem nyJitCachePath_ne_iff (host : Host) (source : Text) (a b : Settings) :
    (host.dir.length ≤ 986 → (nyJitCachePath host source a ≠ nyJitCachePath host source b ↔
      difference host a b ≠ 0)) ∧
    (nyJitCachePath host source a ≠ nyJitCachePath host source b → difference host a b ≠ 0) := by
  rw [Ne, Ne, difference_eq_zero_iff]
  refine ⟨fun fits => not_congr (nyJitCachePath_eq_iff fits source a b), fun apart same => apart ?_⟩
  unfold nyJitCachePath
  rw [same]

/-- A compiler and the place of its files. -/
def plainHost : Host :=
  ⟨nm "/home/u/.cache/nytrix/jit", false, false, fun _ => none, 0, none, nm "0.1", none, none, 0⟩

/-- The settings of a compilation without optimisations and without a library. -/
def plainSettings : Settings := ⟨none, 0, 0, 0, 0, false, fun _ => none⟩

/-- An environment that turns tracing on. -/
def traceEnvironment : Environment :=
  fun name => if name = nm "NYTRIX_TRACE" then some (nm "1") else none

/-- Settings that differ in a switch alone have different names. -/
theorem nyJitCachePath_ne_iff_trace :
    nyJitCachePath plainHost (nm "1") { plainSettings with getenv := traceEnvironment } ≠
      nyJitCachePath plainHost (nm "1") plainSettings :=
  ((nyJitCachePath_ne_iff plainHost (nm "1") { plainSettings with getenv := traceEnvironment }
    plainSettings).1 (by decide)).mpr (by decide +kernel)

/-- An optimisation level and a removal of dead code give the same name. -/
theorem nyJitCachePath_fails :
    ({ plainSettings with optLevel := 1 } : Settings) ≠ { plainSettings with optDce := 1 } ∧
      nyJitCachePath plainHost (nm "1") { plainSettings with optLevel := 1 } =
        nyJitCachePath plainHost (nm "1") { plainSettings with optDce := 1 } := by
  refine ⟨fun same => absurd (congrArg Settings.optLevel same) (by decide), ?_⟩
  rw [nyJitCachePath_eq_iff (by decide), ← difference_eq_zero_iff]
  decide +kernel

end Separation

end Nytrix.Cache
