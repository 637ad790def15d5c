/-!
# Faults of files

Why a path leads to no file that can be read, in the words of the operating system.
-/

namespace TestMeasures

/-- Why a file cannot be read. -/
inductive FileFault where
  | absent
  | notFolder
  | isFolder
  | tooManyLinks
  | nameTooLong
  | nulInName
deriving Repr, DecidableEq, Inhabited

/-- The message of a file that cannot be read. -/
def FileFault.message : FileFault → String
  | .absent => "No such file or directory (os error 2)"
  | .notFolder => "Not a directory (os error 20)"
  | .isFolder => "Is a directory (os error 21)"
  | .tooManyLinks => "Too many levels of symbolic links (os error 40)"
  | .nameTooLong => "File name too long (os error 36)"
  | .nulInName => "file name contained an unexpected NUL byte"

end TestMeasures
