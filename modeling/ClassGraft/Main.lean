import ClassGraft.CommandLine

namespace ClassGraft

def usage : String :=
  "usage: classgraft [--deobfuscated | --obfuscated] [--fail-closed] [--mappings FILE]\n" ++
  "                  [--output-directory DIRECTORY] [--dry-run] INPUT"

/-- Orders paths by their parts. -/
def pathKey (path : String) : String := path.map fun c => if c = '/' then '\x00' else c

/-- Class files with the names that their paths give to their classes. -/
def classFiles (input : String) := do
  let start := (← IO.currentDir) / input
  if ← start.isDir then
    let depth := start.components.length
    let mut found := #[]
    for p in ← start.walkDir do
      if p.extension == some "class" && !(← p.isDir) then
        let name := String.intercalate "/" ((p.withExtension "").components.drop depth)
        found := found.push (name, p)
    return found.toList.mergeSort fun x y => !(pathKey y.2.toString < pathKey x.2.toString)
  else return [(start.fileStem.getD input, start)]

/-- Patches the class files that the options name. -/
def patchFiles (o : RunOptions) (input : String) : IO UInt32 := do
  let named ← IO.getEnv "CLASSGRAFT_ENVIRONMENT"
  let e := o.environment.or (named.bind Environment.ofText?)
  let texts ← o.mappings.reverse.mapM fun (file : String) => IO.FS.readFile file
  match o.engine (e.getD .obfuscated) texts with
  | .error e =>
    IO.eprintln e.message
    return 1
  | .ok engine =>
    let mut tally := Tally.zero
    for (pathName, path) in ← classFiles input do
      let bytes := (← IO.FS.readBinFile path).toList
      let name := (nameInFile? bytes).getD pathName
      if !engine.isInterested name then
        tally := tally.ignore
        continue
      match engine.transform name bytes with
      | .error (.error e) =>
        IO.eprintln e.message
        return 1
      | .error _ =>
        IO.eprintln s!"stopped while {name} was written"
        return 101
      | .ok t =>
        tally := tally.count t
        IO.println t.line
        if let some e := t.rejection then IO.eprintln e.message
        if !o.isDry then
          let target := (← IO.currentDir) / o.output / (t.className ++ ".class")
          if let some folder := target.parent then IO.FS.createDirAll folder
          IO.FS.writeBinFile target ⟨t.bytes.toArray⟩
    IO.println tally.text
    return if 0 < tally.rejected then 1 else 0

end ClassGraft

open ClassGraft in
def main (args : List String) : IO UInt32 := do
  match RunOptions.initial.add args with
  | .error e =>
    IO.eprintln s!"{e.message}\n{usage}"
    return 2
  | .ok o =>
    match o.input with
    | some input => patchFiles o input
    | none =>
      IO.eprintln usage
      return 2
