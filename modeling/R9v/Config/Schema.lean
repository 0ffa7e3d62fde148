import R9v.Config.ByteSize

/-!
# The settings

The declared settings of `r9v-config/src/lib.rs`, with what the loading of a configuration reads of
them. The type of a setting is the text that the macro of the source makes of its declaration.
-/

namespace R9v

/-- When a setting may change. -/
inductive Mutability
  | runtime | reload | load
  deriving DecidableEq

/-- What is declared of a setting. -/
structure SettingSpec where
  key : String
  typeName : String
  doc : String
  default : String
  /-- A range with `..=` between its bounds, or names with `|` between them, or nothing. -/
  rangeOrEnum : String := ""
  mutability : Mutability
  /-- The former name, or nothing. -/
  renamedFrom : String := ""
  deriving DecidableEq

/-! ### The sections -/

def loadSection : List SettingSpec := [
    { key := "load.model", typeName := "path",
      doc := "Primary model artifact path.",
      default := "(none)", mutability := .load },
    { key := "load.draft_model", typeName := "path",
      doc := "Draft model artifact path, if any.",
      default := "none", mutability := .load },
    { key := "load.eagle_head", typeName := "path",
      doc := "Eagle head artifact path, if any.",
      default := "none", mutability := .load },
    { key := "load.cache_dir", typeName := "Auto<path>",
      doc := "Cache directory. auto = beside the model.",
      default := "auto (beside model)", mutability := .load },
    { key := "load.require_fast_path", typeName := "bool",
      doc := "Require the fast execution path at load.",
      default := "false", mutability := .load }]

def ioSection : List SettingSpec := [
    { key := "io.mode", typeName := "Auto<IoMode>",
      doc :=
        "IO mode for weight reads. auto = direct I/O when supported, otherwise " ++
        "mmap.",
      default := "auto", rangeOrEnum := "direct|mmap|auto", mutability := .load },
    { key := "io.chunk_mb", typeName := "u32",
      doc := "Read chunk size.",
      default := "16", rangeOrEnum := "1..=1024", mutability := .load },
    { key := "io.queue_depth", typeName := "u32",
      doc := "IO queue depth.",
      default := "8", rangeOrEnum := "1..=128", mutability := .load },
    { key := "io.repack_threads", typeName := "Auto<u32>",
      doc := "Repack worker threads. auto = cores minus 2.",
      default := "auto (cores-2)", rangeOrEnum := "1..=256", mutability := .load }]

def hostSection : List SettingSpec := [
    { key := "host.pinned_budget", typeName := "Auto<bytes>",
      doc := "Pinned host-memory budget. auto = min(free minus 4 GB, need).",
      default := "auto (min(free-4GB, need))", mutability := .load }]

def warmupSection : List SettingSpec := [
    { key := "warmup.enabled", typeName := "bool",
      doc := "Run warmup over the bucket set at load.",
      default := "true", mutability := .load },
    { key := "warmup.buckets", typeName := "buckets",
      doc := "Warmup buckets over S, T_dec and T_pre.",
      default := "\x7bS:[1,2,4], T_dec:[1,2,4,8,16,32], T_pre:[0,128,512,2048]\x7d",
      mutability := .load }]

def stateSection : List SettingSpec := [
    { key := "state.max_ctx", typeName := "u32",
      doc := "Maximum context length; must be a multiple of 32.",
      default := "32768", rangeOrEnum := "32..=1048576", mutability := .reload },
    { key := "state.max_seqs", typeName := "u32",
      doc := "Maximum concurrent sequences.",
      default := "8", rangeOrEnum := "1..=1024", mutability := .reload },
    { key := "state.cache_dtype", typeName := "CacheDtype",
      doc := "KV cache dtype.",
      default := "e4m3", rangeOrEnum := "e4m3|i8|f16", mutability := .reload },
    { key := "state.reserve_bytes", typeName := "bytes",
      doc := "Bytes reserved outside the state pool.",
      default := "512 MB", mutability := .reload },
    { key := "state.host_block_budget", typeName := "bytes",
      doc := "Host block spill budget; 0 disables spilling.",
      default := "0", mutability := .reload },
    { key := "state.session_cache", typeName := "u32",
      doc := "Retained sessions per GB of cache.",
      default := "2", rangeOrEnum := "0..=64", mutability := .runtime }]

def schedulerSection : List SettingSpec := [
    { key := "scheduler.step_budget_ms", typeName := "Auto<f32>",
      doc :=
        "Target wall time per step in milliseconds. Prefill chunks and speculative " ++
        "depth are sized so the step fits. auto = 1.25 x measured single-sequence " ++
        "step time (latency) or 8 x (throughput), resolved at warmup on the loaded " ++
        "plan.",
      default := "auto", rangeOrEnum := "1.0..=1000.0", mutability := .runtime },
    { key := "scheduler.prefill_min_chunk", typeName := "u32",
      doc := "Minimum prefill chunk.",
      default := "128", rangeOrEnum := "1..=16384", mutability := .runtime },
    { key := "scheduler.prefill_max_chunk", typeName := "u32",
      doc := "Maximum prefill chunk.",
      default := "2048", rangeOrEnum := "1..=16384", mutability := .runtime },
    { key := "scheduler.max_wait_ms", typeName := "u32",
      doc := "Maximum time a request waits before a step starts.",
      default := "500", rangeOrEnum := "0..=60000", mutability := .runtime }]

def graphSection : List SettingSpec := [
    { key := "graph.mode", typeName := "Auto<GraphMode>",
      doc := "Graph capture mode. auto = measured at warmup.",
      default := "auto (measured)", rangeOrEnum := "auto|list|hipgraph", mutability := .reload }]

def specSection : List SettingSpec := [
    { key := "spec.proposer", typeName := "Auto<ProposerKind>",
      doc :=
        "Speculative proposer. auto = MTP, Eagle, draft, then n-gram according to " ++
        "loaded artifacts.",
      default := "auto", rangeOrEnum := "auto|none|ngram|mtp|draft|eagle", mutability := .reload },
    { key := "spec.k_max", typeName := "u32",
      doc :=
        "Maximum speculative draft depth; k + 1 verified positions must fit the " ++
        "decode-class limit.",
      default := "8", rangeOrEnum := "0..=15", mutability := .runtime },
    { key := "spec.tree_max", typeName := "u32",
      doc := "Maximum speculative tree size.",
      default := "16", rangeOrEnum := "1..=16", mutability := .runtime },
    { key := "spec.min_accept", typeName := "f32",
      doc :=
        "Disable speculation temporarily when the recent acceptance EMA is below " ++
        "this value.",
      default := "0.3", rangeOrEnum := "0.0..=1.0", mutability := .runtime },
    { key := "spec.lossy", typeName := "bool",
      doc := "Permit opt-in lossy Typical acceptance.",
      default := "false", mutability := .runtime }]

def specNgramSection : List SettingSpec := [
    { key := "spec.ngram.n", typeName := "u32",
      doc := "N-gram width.",
      default := "3", rangeOrEnum := "1..=16", mutability := .runtime },
    { key := "spec.ngram.min_match", typeName := "u32",
      doc := "Minimum match length to propose.",
      default := "2", rangeOrEnum := "1..=16", mutability := .runtime }]

def kernelsSection : List SettingSpec := [
    { key := "kernels.allow_jit", typeName := "bool",
      doc := "Allow just-in-time kernel builds.",
      default := "true", mutability := .load },
    { key := "kernels.allow_nondeterministic", typeName := "bool",
      doc := "Allow kernels that may be nondeterministic.",
      default := "false", mutability := .load },
    { key := "kernels.tune_budget_ms", typeName := "u64",
      doc := "Autotune time budget.",
      default := "2000", rangeOrEnum := "0..=600000", mutability := .load }]

def profileSection : List SettingSpec := [
    { key := "profile.mode", typeName := "ProfileMode",
      doc := "Profiling mode.",
      default := "step", rangeOrEnum := "step|kernel|off", mutability := .runtime }]

def logSection : List SettingSpec := [
    { key := "log.level", typeName := "LogLevel",
      doc := "Log level.",
      default := "info", rangeOrEnum := "trace|debug|info|warn|error", mutability := .runtime },
    { key := "log.file", typeName := "path",
      doc := "Log file path; none disables file logging.",
      default := "none", mutability := .runtime }]

def doctorSection : List SettingSpec := [
    { key := "doctor.include_tokens", typeName := "bool",
      doc := "Include token text in the doctor bundle.",
      default := "false", mutability := .runtime },
    { key := "doctor.redact", typeName := "bool",
      doc := "Redact secrets in the doctor bundle.",
      default := "true", mutability := .runtime }]

def benchSection : List SettingSpec := [
    { key := "bench.repeats", typeName := "u32",
      doc := "Measured repeats per benchmark.",
      default := "5", rangeOrEnum := "1..=100", mutability := .runtime },
    { key := "bench.warmup", typeName := "u32",
      doc := "Warmup runs before measurement.",
      default := "2", rangeOrEnum := "0..=100", mutability := .runtime },
    { key := "bench.suites", typeName := "[str]",
      doc := "Benchmark suites to run.",
      default := "[decode, decode-spec, prefill, multi]", mutability := .runtime }]

/-- All settings, in the order of the sections. -/
def allSettings : List SettingSpec :=
  loadSection ++ ioSection ++ hostSection ++ warmupSection ++ stateSection ++ schedulerSection ++
    graphSection ++ specSection ++ specNgramSection ++ kernelsSection ++ profileSection ++ logSection ++
    doctorSection ++ benchSection

/-- The setting of a key. -/
def findSetting (key : String) : Option SettingSpec := allSettings.find? fun spec => spec.key == key

end R9v
