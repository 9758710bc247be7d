/-
  A small sample of records without hooks: a job with limits behind a nil-able pointer.
-/
import DocPointer.Samples.Catalog

namespace DocPointer.Samples

/-- Records that are read exactly. -/
def jobs : Schema :=
  let Γ : Schema := ⟨[], ⟨none, .nearest⟩, 8⟩
  let Γ := declareParts Γ "Limits" [tagged "cpu" i64 "Cpu" "cpu"]
  declareParts Γ "Job" [
    embedding "limits" (.opt (.record "Limits")) "Limits" "Limits",
    tagged "steps" (.opt (.slice (hashed i64))) "Steps" "steps",
    tagged "notes" .raw "Notes" "notes"]

/-- A job without anything. -/
def job : Val := jobs.zero (.record "Job")

/-- A job with limits, a step and notes. -/
def busyJob : Val :=
  .record "Job" [.ptr (.record "Limits" [.int .i64 4]),
    .ptr (.slice (hashed i64) [.map .hashed .string i64 [(.text "cpu", .int .i64 1)]]),
    .raw (Json.obj [("ports", .arr [.str "http"])]).toBytes]

end DocPointer.Samples
