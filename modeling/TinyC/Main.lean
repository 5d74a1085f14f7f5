import TinyC.CommandLine

/-!
# The program

Reads files and prints for `TinyC.CommandLine`.
-/

open TinyC.CommandLine

/-- Read the bytes of a file. -/
def TinyC.CommandLine.readFile (path : String) : IO (Except ReadError ByteArray) := do
  try
    return .ok (← IO.FS.readBinFile path)
  catch
    | .noFileOrDirectory .. => return .error .notFound
    | .inappropriateType .. => return .error .isDirectory
    | e => return .error (.other (toString e))

def main (args : List String) : IO UInt32 := do
  let report ← run readFile args
  (← IO.getStdout).putStr report.output.stdout
  (← IO.getStderr).putStr report.output.stderr
  return report.exitCode.toUInt32
