import MicroCompiler.Source.Path

/-! The files a compilation has read. Files are only added; each keeps the index it was given. -/

namespace MicroCompiler

structure FileEntry where
  /-- The path as it was asked for. -/
  relative : String
  absolute : String
  content : String
  deriving DecidableEq, Repr

structure FileTable where
  entries : Array FileEntry
  deriving Repr

namespace FileTable

def empty : FileTable := ⟨#[]⟩

def size (files : FileTable) : Nat := files.entries.size

/-- Registers a file, again if it is there already. -/
def add (files : FileTable) (entry : FileEntry) : Nat × FileTable :=
  (files.entries.size, ⟨files.entries.push entry⟩)

def get? (files : FileTable) (index : Nat) : Option FileEntry := files.entries[index]?

/-- The first file registered under an absolute path. -/
def find? (files : FileTable) (absolute : String) : Option Nat :=
  files.entries.findIdx? fun e => Path.ofString e.absolute == Path.ofString absolute

def render (files : FileTable) : String := "FileTable \x7b len: " ++ s!"{files.size}" ++ " \x7d"

end FileTable

end MicroCompiler
