import ChangeSplit.CommandLine.Recording
import ChangeSplit.CommandLine.Run

/-! The program. It starts no other program: the answers of the repository come from a recording
on the standard input. -/

open ChangeSplit

/-- All bytes that are left on a stream. -/
partial def readAll (stream : IO.FS.Stream) (done : ByteArray) : IO ByteArray := do
  let more ← stream.read 65536
  if more.isEmpty then return done else readAll stream (done ++ more)

def main (arguments : List String) : IO UInt32 := do
  let recording := Recording.ofBytes (← readAll (← IO.getStdin) .empty).toList
  let (ending, transcript) := CommandLine.run (recording.surroundings "scratch") arguments
  for note in transcript.notes do
    IO.eprintln (note.level.name ++ " " ++ note.topic ++ ": " ++ note.message)
  IO.eprint ending.complaint
  IO.print ending.printed
  return ending.exitCode.toUInt32
