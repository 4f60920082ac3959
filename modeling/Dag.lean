import Dag.GoSort
import Dag.GoSortPerm
import Dag.GoSortSorted
import Dag.GoSortQuick
import Dag.Manifest
import Dag.ManifestWalk
import Dag.ManifestNodes
import Dag.ManifestState
import Dag.ManifestFuel
import Dag.ManifestOrder
import Dag.ManifestWeights
import Dag.Completion
import Dag.Session
import Dag.Sync
