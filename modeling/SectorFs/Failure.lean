/-!
# Failures

What an operation on a filesystem can report.  Every failure has a code between
`1` and `14`, the number that a system call hands back negated (`Failure.errno`),
and a text.  `ofCode?` and `ofErrno?` read the two numbers back.
-/

namespace SectorFs

/-- Why an operation failed. -/
inductive Failure where
  | notFound
  | notADirectory
  | isADirectory
  | alreadyExists
  | directoryNotEmpty
  | invalidArgument
  | nameTooLong
  | fileTooLarge
  | outOfInodes
  | outOfDiskSpace
  | ioError
  | corruptSuperblock
  | corrupted
  /-- An allocation was too large; memory is taken to suffice for all others. -/
  | outOfMemory
deriving DecidableEq, Repr

namespace Failure

/-- Every failure, by rising code. -/
def all : List Failure :=
  [notFound, notADirectory, isADirectory, alreadyExists, directoryNotEmpty, invalidArgument,
    nameTooLong, fileTooLarge, outOfInodes, outOfDiskSpace, ioError, corruptSuperblock, corrupted,
    outOfMemory]

def code : Failure → Nat
  | notFound => 1
  | notADirectory => 2
  | isADirectory => 3
  | alreadyExists => 4
  | directoryNotEmpty => 5
  | invalidArgument => 6
  | nameTooLong => 7
  | fileTooLarge => 8
  | outOfInodes => 9
  | outOfDiskSpace => 10
  | ioError => 11
  | corruptSuperblock => 12
  | corrupted => 13
  | outOfMemory => 14

def message : Failure → String
  | notFound => "Not found"
  | notADirectory => "Not a directory"
  | isADirectory => "Is a directory"
  | alreadyExists => "Already exists"
  | directoryNotEmpty => "Directory not empty"
  | invalidArgument => "Invalid argument"
  | nameTooLong => "File name too long"
  | fileTooLarge => "File too large"
  | outOfInodes => "Out of inodes"
  | outOfDiskSpace => "Out of disk space"
  | ioError => "I/O error"
  | corruptSuperblock => "Corrupt superblock"
  | corrupted => "Corrupted filesystem metadata"
  | outOfMemory => "Out of memory"

def ofCode? (n : Nat) : Option Failure :=
  all.find? (·.code == n)

def maxCode : Nat :=
  (all.map code).foldl max 0

/-- A failure as a system call returns it. -/
def errno (f : Failure) : Int :=
  -(f.code : Int)

/-- The failure a system call returned; a number that is not negative is none. -/
def ofErrno? (n : Int) : Option Failure :=
  if n < 0 then ofCode? n.natAbs else none

end Failure

end SectorFs
