import QueryTidy.Text.Basic

/-!
# Faults of input and output

The reasons for which the operating system refuses to open a file, to create a pipe or to start a
program. Most are known by the number and the wording of the system.
-/

namespace QueryTidy

/-- Why an operation on files, pipes or programs fails. -/
inductive IoError where
  /-- A fault with a number of the system. -/
  | system (code : Nat)
  /-- A path contains a NUL byte. -/
  | nulInPath
  /-- A command contains a NUL byte. -/
  | nulInCommand
  /-- A fault that has only a description. -/
  | described (text : Text)
  deriving DecidableEq, Repr

namespace IoError

/-- The faults that have a number, with the system's wording. -/
def systemTable : List (Nat × String) :=
  [(1, "Operation not permitted"), (2, "No such file or directory"), (3, "No such process"),
   (4, "Interrupted system call"), (5, "Input/output error"), (6, "No such device or address"),
   (7, "Argument list too long"), (8, "Exec format error"), (9, "Bad file descriptor"),
   (10, "No child processes"), (11, "Resource temporarily unavailable"),
   (12, "Cannot allocate memory"), (13, "Permission denied"), (14, "Bad address"),
   (15, "Block device required"), (16, "Device or resource busy"), (17, "File exists"),
   (18, "Invalid cross-device link"), (19, "No such device"), (20, "Not a directory"),
   (21, "Is a directory"), (22, "Invalid argument"), (23, "Too many open files in system"),
   (24, "Too many open files"), (25, "Inappropriate ioctl for device"), (26, "Text file busy"),
   (27, "File too large"), (28, "No space left on device"), (29, "Illegal seek"),
   (30, "Read-only file system"), (31, "Too many links"), (32, "Broken pipe"),
   (33, "Numerical argument out of domain"), (34, "Numerical result out of range"),
   (35, "Resource deadlock avoided"), (36, "File name too long"), (37, "No locks available"),
   (38, "Function not implemented"), (39, "Directory not empty"),
   (40, "Too many levels of symbolic links")]

/-- The system's wording of a number. -/
def systemText (code : Nat) : Text :=
  match systemTable.find? fun row => row.1 = code with
  | some row => row.2.toList
  | none => "Unknown error ".toList ++ Text.ofNat code

/-- The path does not exist. -/
def notFound : IoError := .system 2

/-- There is not enough memory. -/
def outOfMemory : IoError := .system 12

/-- The file may not be used so. -/
def permissionDenied : IoError := .system 13

/-- Something that is not a directory is used as one. -/
def notDirectory : IoError := .system 20

/-- A directory is used as a file. -/
def isDirectory : IoError := .system 21

/-- No more files can be open. -/
def tooManyFiles : IoError := .system 24

/-- The device is full. -/
def noSpace : IoError := .system 28

/-- A name or a path is too long. -/
def nameTooLong : IoError := .system 36

/-- Following a path takes too many symbolic links. -/
def tooManyLinks : IoError := .system 40

/-- The wording of the fault. -/
def message : IoError → Text
  | .system code => systemText code ++ " (os error ".toList ++ Text.ofNat code ++ [')']
  | .nulInPath => "file name contained an unexpected NUL byte".toList
  | .nulInCommand => "nul byte found in provided data".toList
  | .described text => text

end IoError

end QueryTidy
