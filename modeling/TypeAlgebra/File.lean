/-! Files as the command line sees them: bytes under a path, read whole or line by line. -/
namespace TypeAlgebra

/-- What the system says when a file can't be opened or read. -/
structure FileError where
  description : String
  code : Nat
  deriving DecidableEq

namespace FileError

def text (e : FileError) : String := s!"{e.description} (os error {e.code})"

def notFound : FileError := ⟨"No such file or directory", 2⟩
def notDirectory : FileError := ⟨"Not a directory", 20⟩
def isDirectory : FileError := ⟨"Is a directory", 21⟩
def nameTooLong : FileError := ⟨"File name too long", 36⟩

end FileError

/-- A file that was opened: its bytes, or why they can't be read. -/
abbrev File := Except FileError ByteArray

/-- Finds the file of a path. -/
abbrev Opener := String → Except FileError File

namespace File

def notText : String := "stream did not contain valid UTF-8"

/-- The whole text of a file, or why it can't be had. -/
def text (file : File) : Except String String :=
  match file with
  | .error e => .error e.text
  | .ok bytes =>
    match String.fromUTF8? bytes with
    | some text => .ok text
    | none => .error notText

/-- Splits bytes after each line feed. -/
def splitLines : List UInt8 → List (List UInt8)
  | [] => []
  | b :: rest =>
    if b = 10 then [b] :: splitLines rest
    else match splitLines rest with
      | [] => [[b]]
      | line :: others => (b :: line) :: others

/-- The lines of a file with their ends, each of which may turn out not to be text. -/
def lines (file : File) : List (Except String String) :=
  match file with
  | .error e => [.error e.text]
  | .ok bytes =>
    (splitLines bytes.toList).map fun line =>
      match String.fromUTF8? (ByteArray.mk line.toArray) with
      | some text => .ok text
      | none => .error notText

end File

/-- A directory held in memory: the bytes of its files by their paths below it. A path that ends in a
slash is that of a directory with nothing known in it. -/
abbrev Directory := List (String × ByteArray)

namespace Directory

/-- The bytes that a name on a path can have. -/
def longestName : Nat := 255

/-- The bytes that a path can have. -/
def longestPath : Nat := 4095

/-- Walks a path through the names of directories, from the place below `d` that the names in `here` lead
to. There is nothing above `d`: the way up from it leads to it again. -/
def walk (d : Directory) (here : List String) : List String → Except FileError File
  | [] =>
    match d.lookup ("/".intercalate here) with
    | some bytes => .ok (.ok bytes)
    | none => .ok (.error .isDirectory)
  | name :: rest =>
    if (d.lookup ("/".intercalate here)).isSome then .error .notDirectory
    else if name = "" ∨ name = "." then d.walk here rest
    else if name = ".." then d.walk here.dropLast rest
    else if longestName < name.utf8ByteSize then .error .nameTooLong
    else
      let there := here ++ [name]
      let path := "/".intercalate there
      if d.any fun (file, _) => file = path || (path ++ "/").isPrefixOf file then d.walk there rest
      else .error .notFound

/-- What every system has at its root, as far as a program that only reads can tell. -/
def root : Directory :=
  [("dev/null", .empty), ("dev/stdin", .empty), ("bin/", .empty), ("boot/", .empty), ("etc/", .empty),
  ("home/", .empty), ("lib/", .empty), ("media/", .empty), ("mnt/", .empty), ("opt/", .empty),
  ("proc/", .empty), ("root/", .empty), ("run/", .empty), ("sbin/", .empty), ("srv/", .empty),
  ("sys/", .empty), ("tmp/", .empty), ("usr/bin/", .empty), ("usr/lib/", .empty), ("var/", .empty)]

/-- The way from the root to the directory at hand. Its own name isn't known: a dot on its own stands for
it, which no path leads through. -/
def workplace : List String := ["tmp", "."]

/-- The whole system, with the directory in its place. -/
def inSystem (d : Directory) : Directory :=
  root ++ d.map fun (path, bytes) => ("/".intercalate (workplace ++ [path]), bytes)

/-- Opens a path from the directory, or from the root. -/
def opener (d : Directory) : Opener := fun path =>
  if path = "" then .error .notFound
  else if longestPath < path.utf8ByteSize then .error .nameTooLong
  else d.inSystem.walk (if "/".isPrefixOf path then [] else workplace) (path.splitOn "/")

end Directory
end TypeAlgebra
