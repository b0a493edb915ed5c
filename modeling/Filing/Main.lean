import Filing.Inspect.Report

/-!
# The inspector

The command line program.  The settings file may be named by an option or by the environment.
-/

namespace Filing

/-- The bytes of a file, if it can be read. -/
def readBytes (file : String) : IO (Option ByteArray) := do
  try
    return some (← IO.FS.readBinFile file)
  catch _ =>
    return none

end Filing

def main (args : List String) : IO UInt32 := do
  let environment ← IO.getEnv "FOLIO_CONFIG"
  let report ← Filing.Inspect.run Filing.readBytes environment args
  (← IO.getStdout).putStr report.output
  (← IO.getStderr).putStr report.errors
  return report.code.toUInt32
