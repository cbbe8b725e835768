import RouterShift.Console.Style
import RouterShift.Package.Name

/-! The notice that a package in the maintenance scope shows after it was installed. -/

namespace RouterShift.Console

def maintenanceNotice (color : Bool) (package : String) : String :=
  let header := s!"WARNING {PackageName.maintenance package} (formely {package}):"
  let initiative := "Angular Compatibility Maintenance Initiative"
  s!"{Style.boldYellow.paint color header} This package is part of the "
    ++ s!"{Style.underline.paint color initiative}.\n"
    ++ "It receives updates for Angular compatibility only, with no new features or bug fixes.\n"
    ++ "Please plan to migrate to an actively supported alternative."

end RouterShift.Console
