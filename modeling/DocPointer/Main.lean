/-
  The command line: the document is read from standard input, the answer goes to standard
  output and complaints to standard error.
-/
import DocPointer.Command

/-- All that is left to read. -/
partial def readAll (stream : IO.FS.Stream) (read : ByteArray) : IO ByteArray := do
  let chunk ← stream.read 65536
  if chunk.isEmpty then return read else readAll stream (read ++ chunk)

/-- Carries out the command in the arguments. -/
def main (args : List String) : IO UInt32 := do
  let input ← readAll (← IO.getStdin) .empty
  let response := DocPointer.Command.respond args input
  (← IO.getStdout).putStr response.output
  (← IO.getStderr).putStr response.errors
  return response.status.toUInt32
