import AmcPci.Proof.Core
import AmcPci.Proof.Dma.LateReset
import AmcPci.Proof.DmaCall.File
import AmcPci.Proof.DmaCall.Region
import AmcPci.Proof.DmaFile.Cyclic
import AmcPci.Proof.DmaShared.File
import AmcPci.Proof.Isr
import AmcPci.Proof.Nodes.Class
import AmcPci.Proof.Nodes.Walks
import AmcPci.Proof.Probe
import AmcPci.Proof.Prom.Checksum
import AmcPci.Proof.Prom.Corruption
import AmcPci.Proof.Prom.Fields
import AmcPci.Proof.Prom.Files
import AmcPci.Proof.Registers.Crowd
import AmcPci.Proof.Registers.EventRead
import AmcPci.Proof.Registers.Map
import AmcPci.Proof.Setup.Geometry
import AmcPci.Proof.Setup.Shape
import AmcPci.Proof.Sysfs
import AmcPci.Proof.Tool.Coe
import AmcPci.Proof.Tool.InStep
