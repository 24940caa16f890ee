import KwaqueStorage.Extent.Verifier
import KwaqueStorage.Scan.Reader

/-!
# What a scan of a segment file reports

`segment_scanner` reads a segment's data file once, from its data start or from a footer an
independent record pinned, to the first damage. Recovery plans by what it reports: why it stopped,
its verdict, and the last footer that names exactly the prefix before it.
-/

namespace KwaqueStorage.SegmentScan

open Scan Extent

/-- `segment_scan_stop`. -/
inductive ScanStop
  | end_
  | unwritten
  | torn
  | corrupt
  | malformed
  | foreign
  deriving DecidableEq

/-- `segment_scan_verdict`. -/
inductive ScanVerdict
  | clean
  | uncertifiedTail
  | corrupt
  deriving DecidableEq

/-- `local_footer_reference`. -/
structure Reference where
  position : Nat
  bytes : Nat
  family : Nat
  digest : Nat
  deriving DecidableEq

/-- `segment_scan_boundary`. -/
structure ScanBoundary where
  footer : Reference
  fields : BoundaryFields
  deriving DecidableEq

end KwaqueStorage.SegmentScan
